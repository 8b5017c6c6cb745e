import BlackadderJNI.Native.EventDecode
import BlackadderJNI.Wrapper.BAEvent

/-!
# From a datagram to a `BAEvent`

Translation of the receiving half of the native wrappers (`…_BAWrapper.cpp`, `…_BAWrapperNB.cpp`)
and of `getNextEventDirect` and `onEventReceived` (`BAWrapper.java`, `BAWrapperNB.java`).

* `idArray`, `dataBuffer`   what the native side makes of an `Event` through the JNI;
* `BAWrapper.getNextEventDirect`   the blocking path;
* `BAWrapperNB.onEventReceived`    the end of the non-blocking path;
* `event_roundTrip`                what was laid out in the datagram is what the `BAEvent` tells.
-/

namespace BA

/-- the type byte of an event on the wire -/
def BAEventType.code : BAEventType → UInt8
  | .startPublish => 100
  | .stopPublish => 101
  | .scopePublished => 102
  | .scopeUnpublished => 103
  | .publishedData => publishedDataCode

namespace Wrapper

/-! ## the JNI -/

def newByteArray (length : Nat) : Bytes := List.replicate length 0

/-- `SetByteArrayRegion`, for a region inside the array -/
def setByteArrayRegion (array : Bytes) (start len : Nat) (buf : Bytes) : Bytes :=
  array.take start ++ buf.take len ++ array.drop (start + len)

def idArray (ev : Event) : Bytes :=
  setByteArrayRegion (newByteArray ev.id.length) 0 ev.id.length ev.id

/-- `NewDirectByteBuffer(ev->data, ev->data_len)`; for NULL a JVM may return an empty view
or null -/
def dataBuffer (viewsNull : Bool) (ev : Event) : Option ByteBuffer :=
  match ev.buffer, ev.data with
  | some buffer, some data => some (.ofBytes (bytesAt buffer data ev.dataLen))
  | _, _ => if viewsNull then some (.ofBytes []) else none

structure BAEventInternal where
  type : Int8
  id : Bytes
  data : Option ByteBuffer

/-! ## the two paths -/

/-- the construction of the event, the same on both paths; a `byte` is widened to `int` -/
def construct (type : Int8) (id : Bytes) (data : Option ByteBuffer) : BAEvent :=
  let eventType := BAEventType.getById type.toInt
  match data with
  | some data => BAEvent.new eventType id (some data) data.capacity
  | none => BAEvent.new eventType id none 0

namespace BAWrapper

def cNextEventDirect (viewsNull : Bool) (r : Reply) : BAEventInternal :=
  let ev := Blackadder.getEvent Event.new r
  ⟨ev.type.toInt8, idArray ev, dataBuffer viewsNull ev⟩

/-- `eventPtr` is the pointer that the native side returns -/
def getNextEventDirect (viewsNull : Bool) (r : Reply) (eventPtr : Addr) :
    Except JavaException BAEvent :=
  let e := cNextEventDirect viewsNull r
  let retval := construct e.type e.id e.data
  retval.setNativeMemoryMappings (some .baWrapper) eventPtr

end BAWrapper

namespace BAWrapperNB

/-- the Java method, up to the call of the callback: `inst` is null until `getWrapper` has
returned -/
def onEventReceived (inst : Option EventManagement) (eventPtr : Addr) (type : Int8) (id : Bytes)
    (data : Option ByteBuffer) : Except JavaException BAEvent :=
  let event := construct type id data
  event.setNativeMemoryMappings inst eventPtr

/-- the native callback, which calls the Java method -/
def nativeOnEventReceived (viewsNull : Bool) (inst : Option EventManagement) (eventPtr : Addr)
    (ev : Event) : Except JavaException BAEvent :=
  onEventReceived inst eventPtr ev.type.toInt8 (idArray ev) (dataBuffer viewsNull ev)

/-- from the selector to the callback; the worker passes the pointer on -/
def nextEvent (viewsNull : Bool) (inst : Option EventManagement) (r : Reply) (eventPtr : Addr) :
    Option (Except JavaException BAEvent) :=
  (NBBlackadder.selectorEvent r).map (nativeOnEventReceived viewsNull inst eventPtr)

end BAWrapperNB

/-! ## what both paths make -/

/-- an event as the receive paths make it -/
structure Fresh (e : BAEvent) (eventPtr : Addr) : Prop where
  mapped : ∃ w, e.mapping = some ⟨w, eventPtr⟩
  live : e.freed = false

theorem construct_fresh {type : Int8} {id : Bytes} {data : Option ByteBuffer}
    {wrapper : Option EventManagement} {eventPtr : Addr} {e : BAEvent}
    (h : (construct type id data).setNativeMemoryMappings wrapper eventPtr = .ok e) :
    Fresh e eventPtr := by
  have hnew : (construct type id data).mapping = none ∧ (construct type id data).freed = false := by
    cases data with
    | none => exact ⟨rfl, rfl⟩
    | some b => exact ⟨rfl, rfl⟩
  unfold BAEvent.setNativeMemoryMappings at h
  rw [hnew.1] at h
  cases wrapper with
  | none => cases h
  | some w =>
    cases h
    exact ⟨⟨w, rfl⟩, hnew.2⟩

/-! ## the round trip -/

theorem idArray_eq (ev : Event) : idArray ev = ev.id := by
  simp [idArray, setByteArrayRegion, newByteArray]

theorem getById_code (ty : BAEventType) : BAEventType.getById ty.code.toInt8.toInt = some ty := by
  cases ty <;> rfl

theorem code_ne {ty : BAEventType} (h : ty ≠ .publishedData) : ty.code ≠ publishedDataCode := by
  cases ty with
  | publishedData => exact absurd rfl h
  | _ => decide

/-- what a `BAEvent` tells of the datagram it was made of -/
structure Carries (e : BAEvent) (ty : BAEventType) (id payload : Bytes) : Prop where
  type : e.getType = some ty
  id : e.getId = .ok id
  published : ty = .publishedData →
    e.getDataLength = .ok payload.length ∧ e.getDataCopy.1 = .ok payload
  other : ty ≠ .publishedData →
    e.getDataLength = .ok 0 ∧ ∀ m, m ≠ .getId → (invoke e m).result.exposed = []

/-- the event of published data, as the JNI hands it over -/
theorem dataBuffer_published {r : Reply} {header id payload : Bytes} {type count : UInt8}
    (viewsNull : Bool) (hheader : header.length = sizeofNlmsghdr)
    (h : r.recv = some (datagram header type count id payload)) :
    dataBuffer viewsNull ⟨type, id, some (idOffset + id.length), payload.length, some r.memory⟩ =
      some (.ofBytes payload) := by
  have hsplit : datagram header type count id payload =
      (header ++ [type, count] ++ id) ++ (payload ++ []) := by simp [datagram]
  have hlen : (header ++ [type, count] ++ id).length = idOffset + id.length := by
    simp only [List.length_append, hheader]
    rfl
  have hbytes : bytesAt r.memory (idOffset + id.length) payload.length = payload := by
    rw [← hlen]
    exact bytesAt_append (hsplit ▸ h)
  show some (ByteBuffer.ofBytes (bytesAt r.memory _ _)) = _
  rw [hbytes]

theorem construct_published (id payload : Bytes) (w : EventManagement) (eventPtr : Addr) :
    ∃ e, (construct publishedDataCode.toInt8 id (some (.ofBytes payload))).setNativeMemoryMappings
        (some w) eventPtr = .ok e ∧ Carries e .publishedData id payload := by
  refine ⟨_, rfl, rfl, rfl, fun _ => ⟨rfl, ?_⟩, fun hne => absurd rfl hne⟩
  exact getDataCopy_fresh rfl rfl rfl

theorem construct_other {ty : BAEventType} (hty : ty ≠ .publishedData) (viewsNull : Bool)
    (id payload : Bytes) (w : EventManagement) (eventPtr : Addr) :
    ∃ e, (construct ty.code.toInt8 id
        (if viewsNull then some (.ofBytes []) else none)).setNativeMemoryMappings
        (some w) eventPtr = .ok e ∧ Carries e ty id payload := by
  have key : ∀ e : BAEvent, e.type = some ty → e.id = id → e.freed = false → e.dataLength = 0 →
      e.dataBytes = [] → Carries e ty id payload := by
    intro e ht hi hf hl hd
    have hguard : ∀ {α : Type} (body : Except JavaException α), e.unlessFreed body = body := by
      intro α body
      unfold BAEvent.unlessFreed
      rw [hf]
      rfl
    refine ⟨ht, ?_, fun hp => absurd hp hty, fun _ => ⟨?_, fun m hm => ?_⟩⟩
    · rw [BAEvent.getId, hguard, hi]
    · rw [BAEvent.getDataLength, hguard, hl]
    · have hinfix := exposed_infix e hm
      rw [hd] at hinfix
      exact List.infix_nil.mp hinfix
  cases viewsNull with
  | true => exact ⟨_, rfl, key _ (getById_code ty) rfl rfl rfl rfl⟩
  | false => exact ⟨_, rfl, key _ (getById_code ty) rfl rfl rfl rfl⟩

/-- the event that both libraries decode, carried through the JNI and the constructor -/
theorem carries_decoded {r : Reply} {ty : BAEventType} {count : UInt8} {header id payload : Bytes}
    (viewsNull : Bool) (w : EventManagement) (eventPtr : Addr)
    (hheader : header.length = sizeofNlmsghdr) (hid : id.length = count.toNat * pursuitIdLen)
    (h : r.recv = some (datagram header ty.code count id payload)) {ev : Event}
    (hev : ev = Event.decode r.memory (datagram header ty.code count id payload).length) :
    ∃ e, (construct ev.type.toInt8 (idArray ev) (dataBuffer viewsNull ev)).setNativeMemoryMappings
        (some w) eventPtr = .ok e ∧ Carries e ty id payload := by
  have hdec := hev.trans (decode_datagram hheader hid h)
  by_cases hty : ty = .publishedData
  · subst hty
    rw [show BAEventType.publishedData.code = publishedDataCode from rfl] at hdec h
    rw [if_pos rfl] at hdec
    rw [idArray_eq, hdec, dataBuffer_published viewsNull hheader h]
    exact construct_published id payload w eventPtr
  · rw [if_neg (code_ne hty)] at hdec
    rw [idArray_eq, hdec]
    exact construct_other hty viewsNull id payload w eventPtr

/-- **Events arrive as they were laid out**, on the blocking and on the non-blocking path, for
every header, count, identifier and payload. -/
theorem event_roundTrip (viewsNull : Bool) (eventPtr : Addr) (r : Reply) (ty : BAEventType)
    (count : UInt8) (header id payload : Bytes) (hheader : header.length = sizeofNlmsghdr)
    (hid : id.length = count.toNat * pursuitIdLen)
    (h : r.recv = some (datagram header ty.code count id payload)) :
    (∃ e, BAWrapper.getNextEventDirect viewsNull r eventPtr = .ok e ∧
      Carries e ty id payload) ∧
    (∃ e, BAWrapperNB.nextEvent viewsNull (some .baWrapperNB) r eventPtr = some (.ok e) ∧
      Carries e ty id payload) := by
  have hpos : 0 < (datagram header ty.code count id payload).length := by
    simp [datagram]
  obtain ⟨hb, hn⟩ := events_of_received Event.new h hpos
  constructor
  · exact carries_decoded viewsNull .baWrapper eventPtr hheader hid h hb
  · obtain ⟨e, he, hc⟩ := carries_decoded viewsNull .baWrapperNB eventPtr hheader hid h rfl
    refine ⟨e, ?_, hc⟩
    unfold BAWrapperNB.nextEvent
    rw [hn]
    exact congrArg some he

/-- published data with an identifier of two fragments, one of them zero -/
def newDataId : Bytes := [0, 0, 0, 0, 0, 0, 0, 0, 0x22, 0x22, 0x22, 0x22, 0x22, 0x22, 0x22, 0x22]

def newData : Bytes := datagram (List.replicate 16 0) publishedDataCode 2 newDataId [7, 0, 9]

theorem newData_length : (newData.length : Int) < 2 ^ 31 := by decide

theorem event_roundTrip_newData :
    ∃ e, BAWrapper.getNextEventDirect true (Reply.whole newData newData_length) 64 = .ok e ∧
      e.getDataCopy.1 = .ok [7, 0, 9] := by
  obtain ⟨e, he, hc⟩ := (event_roundTrip true 64 (Reply.whole newData newData_length)
    .publishedData 2 (List.replicate 16 0) newDataId [7, 0, 9] rfl rfl rfl).1
  exact ⟨e, he, (hc.published rfl).2⟩

end Wrapper
end BA
