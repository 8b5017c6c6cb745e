import BlackadderJNI.Wrapper.Release

/-!
# Classifying events of every type byte

`HashClassifierCallback.eventReceived` on what `BAWrapperNB.onEventReceived` builds, of any type
byte, identifier and data.

* `Corresponds ty p`   the handler method that belongs to an event type;
* `Classified`         the call returns, and calls that method of one handler where one is found;
* `classified_iff`     a call goes wrong exactly for an unknown type byte whose identifier has a
                       control handler.
-/

namespace BA
namespace Wrapper
open HashClassifierCallback

variable {D C : Type}

/-- the methods of the two handler interfaces, by the type of the event -/
inductive Corresponds : BAEventType → Place D C → Prop
  | publishedData (handler : D) : Corresponds .publishedData (.data handler)
  | newData (handler : C) : Corresponds .publishedData (.control handler .newData)
  | scopePublished (handler : C) : Corresponds .scopePublished (.control handler .scopePublished)
  | scopeUnpublished (handler : C) :
    Corresponds .scopeUnpublished (.control handler .scopeUnpublished)
  | startPublish (handler : C) : Corresponds .startPublish (.control handler .startPublish)
  | stopPublish (handler : C) : Corresponds .stopPublish (.control handler .stopPublish)

/-- a data handler for published data, or a control handler -/
def HandlerFound (k : Nat) (ops : List (Op D C)) (event : BA.BAEvent) : Prop :=
  (event.type = some .publishedData ∧ DataBound ops event.id) ∨ ControlBound k ops event.id

/-- what has to hold of a call of `eventReceived` -/
structure Classified (k : Nat) (ops : List (Op D C)) (event : BA.BAEvent) (out : Delivery D C) :
    Prop where
  returns : out ≠ .nullPointerException
  atMostOne : (placesOf out).length ≤ 1
  method : ∀ ty, event.type = some ty → ∀ p ∈ placesOf out, Corresponds ty p
  called : ∀ ty, event.type = some ty → HandlerFound k ops event → (placesOf out).length = 1
  unknown : event.type = none → placesOf out = []

/-! ## one call -/

theorem corresponds_methodOf (ty : BAEventType) (handler : C) :
    Corresponds ty (.control handler (methodOf ty) : Place D C) := by
  cases ty <;> constructor

theorem length_placesOf (out : Delivery D C) : (placesOf out).length ≤ 1 := by
  cases out <;> simp [placesOf]

theorem dataBlock_type {dataHandlerMap : AList fun _ : Int32 => D} {event : BA.BAEvent}
    {handler : D} (h : dataBlock dataHandlerMap event = some handler) :
    event.type = some .publishedData := by
  unfold dataBlock at h
  split at h
  · next ht => exact ht
  · cases h

/-- the control block by cases: nothing found, a known type, an unknown type -/
theorem controlBlock_none {k : Nat} {t : LPMTree C} {event : BA.BAEvent}
    (h : t.searchPrefix k event.id = none) :
    (controlBlock k t event : Delivery D C) = .noHandler := by
  unfold controlBlock
  rw [h]

theorem controlBlock_known {k : Nat} {t : LPMTree C} {event : BA.BAEvent} {handler : C}
    {ty : BAEventType} (h : t.searchPrefix k event.id = some handler) (ht : event.type = some ty) :
    (controlBlock k t event : Delivery D C) = .control handler (methodOf ty) := by
  unfold controlBlock
  rw [h, ht]

theorem controlBlock_unknown {k : Nat} {t : LPMTree C} {event : BA.BAEvent} {handler : C}
    (h : t.searchPrefix k event.id = some handler) (ht : event.type = none) :
    (controlBlock k t event : Delivery D C) = .nullPointerException := by
  unfold controlBlock
  rw [h, ht]

theorem eventReceived_data_found {k : Nat} {s : HashClassifierCallback D C} {event : BA.BAEvent}
    {handler : D} (h : dataBlock s.dataHandlerMap event = some handler) :
    eventReceived k s event = .publishedData handler := by
  unfold eventReceived
  rw [h]
  rfl

theorem eventReceived_control {k : Nat} {s : HashClassifierCallback D C} {event : BA.BAEvent}
    (h : dataBlock s.dataHandlerMap event = none) :
    eventReceived k s event = controlBlock k s.controlEventHandlerLPM event := by
  unfold eventReceived
  rw [h]
  rfl

theorem classified_known (k : Nat) (ops : List (Op D C)) {event : BA.BAEvent} {ty : BAEventType}
    (ht : event.type = some ty) :
    Classified k ops event (eventReceived k (after k ops) event) := by
  have hcalled : HandlerFound k ops event →
      (placesOf (eventReceived k (after k ops) event)).length = 1 := by
    rintro (hd | hc)
    · exact (placesOf_eventReceived k _ event).mpr (Or.inl ((dataBlock_ne_none k ops event).mpr hd))
    · refine (placesOf_eventReceived k _ event).mpr (Or.inr ⟨?_, ?_⟩)
      · rw [ht]
        exact Option.some_ne_none ty
      · exact (searchPrefix_ne_none k ops event.id).mpr hc
  have hunknown : ∀ {P : Prop}, event.type = none → P := fun h => by rw [ht] at h; cases h
  cases hd : dataBlock (after k ops).dataHandlerMap event with
  | some handler =>
    rw [eventReceived_data_found hd] at hcalled ⊢
    refine ⟨nofun, length_placesOf _, fun ty' ht' p hp => ?_, fun _ _ => hcalled, hunknown⟩
    rw [dataBlock_type hd] at ht'
    cases ht'
    cases List.mem_singleton.mp hp
    exact .publishedData handler
  | none =>
    rw [eventReceived_control hd] at hcalled ⊢
    cases hs : (after k ops).controlEventHandlerLPM.searchPrefix k event.id with
    | none =>
      rw [controlBlock_none hs] at hcalled ⊢
      exact ⟨nofun, length_placesOf _, fun _ _ _ hp => (List.not_mem_nil hp).elim,
        fun _ _ => hcalled, hunknown⟩
    | some handler =>
      rw [controlBlock_known hs ht] at hcalled ⊢
      refine ⟨nofun, length_placesOf _, fun ty' ht' p hp => ?_, fun _ _ => hcalled, hunknown⟩
      cases ht.symm.trans ht'
      cases List.mem_singleton.mp hp
      exact corresponds_methodOf ty handler

theorem classified_unknown (k : Nat) (ops : List (Op D C)) {event : BA.BAEvent}
    (ht : event.type = none) :
    Classified k ops event (eventReceived k (after k ops) event) ↔
      ¬ ControlBound k ops event.id := by
  have hd : dataBlock (after k ops).dataHandlerMap event = none := by
    unfold dataBlock
    rw [ht]
    rfl
  have hknown : ∀ {ty : BAEventType} {P : Prop}, event.type = some ty → P := fun h => by
    rw [ht] at h
    cases h
  rw [eventReceived_control hd, ← searchPrefix_ne_none, not_not]
  cases hs : (after k ops).controlEventHandlerLPM.searchPrefix k event.id with
  | none =>
    rw [controlBlock_none hs]
    exact ⟨fun _ => rfl, fun _ => ⟨nofun, length_placesOf _, fun _ h => hknown h,
      fun _ h => hknown h, fun _ => rfl⟩⟩
  | some handler =>
    rw [controlBlock_unknown hs ht]
    exact ⟨fun h => absurd rfl h.returns, fun h => nomatch h⟩

/-! ## every type byte -/

theorem getById_eq_none (i : Int) : BAEventType.getById i = none ↔ ¬ (100 ≤ i ∧ i ≤ 104) := by
  simp only [BAEventType.getById, BAEventType.values, List.find?_eq_none, List.forall_mem_cons,
    BAEventType.index, beq_iff_eq]
  simp
  omega

/-- what the callbacks see of an event that `onEventReceived` builds -/
theorem onEventReceived_base {inst : Option EventManagement} {eventPtr : Addr} {type : Int8}
    {id : Bytes} {data : Option ByteBuffer} {event : BAEvent}
    (h : BAWrapperNB.onEventReceived inst eventPtr type id data = .ok event) :
    event.toBAEvent = ⟨BAEventType.getById type.toInt, id⟩ := by
  have hnew : (construct type id data).toBAEvent = ⟨BAEventType.getById type.toInt, id⟩ ∧
      (construct type id data).mapping = none := by
    cases data with
    | none => exact ⟨rfl, rfl⟩
    | some b => exact ⟨rfl, rfl⟩
  unfold BAWrapperNB.onEventReceived BAEvent.setNativeMemoryMappings at h
  dsimp only at h
  rw [hnew.2] at h
  cases inst with
  | none => cases h
  | some w =>
    cases h
    exact hnew.1

/-- **When an event is classified.**  After every history of registrations, an event of any type
byte, identifier and data is classified as it should be exactly when its type byte is one of the
five known ones, or no control handler is found for its identifier. -/
theorem classified_iff (inst : Option EventManagement) (eventPtr : Addr) (type : Int8) (id : Bytes)
    (data : Option ByteBuffer) (event : BAEvent)
    (h : BAWrapperNB.onEventReceived inst eventPtr type id data = .ok event) (k : Nat)
    (ops : List (Op D C)) :
    Classified k ops event.toBAEvent (eventReceived k (after k ops) event.toBAEvent) ↔
      (100 ≤ type.toInt ∧ type.toInt ≤ 104) ∨ ¬ ControlBound k ops id := by
  rw [onEventReceived_base h]
  cases ht : BAEventType.getById type.toInt with
  | none =>
    rw [classified_unknown k ops rfl]
    exact ⟨Or.inr, fun hor => hor.resolve_left ((getById_eq_none _).mp ht)⟩
  | some ty =>
    refine ⟨fun _ => Or.inl ?_, fun _ => classified_known k ops rfl⟩
    by_contra hno
    rw [(getById_eq_none _).mpr hno] at ht
    cases ht

theorem classified_iff_scope :
    Classified 8 [.registerControlEventHandler LPMTree.rootScope 7] scopeEvent.toBAEvent
      (eventReceived 8 (after 8 [Op.registerControlEventHandler (D := Nat) LPMTree.rootScope 7])
        scopeEvent.toBAEvent) :=
  (classified_iff (some .baWrapperNB) 64 102 LPMTree.rootScope (some (.ofBytes [])) scopeEvent rfl
    8 _).mpr (Or.inl (by decide))

/-- `UNDEF_EVENT` for a registered scope: the `switch` on null throws. -/
theorem undefEvent_throws :
    ¬ ∀ (ops : List (Op Nat Nat)) (eventPtr : Addr) (type : Int8) (event : BAEvent),
      BAWrapperNB.onEventReceived (some .baWrapperNB) eventPtr type LPMTree.rootScope
        (some (.ofBytes [])) = .ok event →
      Classified 8 ops event.toBAEvent (eventReceived 8 (after 8 ops) event.toBAEvent) := by
  intro h
  have hc := h [.registerControlEventHandler LPMTree.rootScope 7] 64 undefEvent.toInt8 _ rfl
  exact hc.returns (by decide)

end Wrapper
end BA
