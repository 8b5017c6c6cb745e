import BlackadderJNI.Callback.HashClassifier

/-!
# `BAEvent`, with its data and its native memory

Translation of `BAEvent.java`.  The base structure `BA.BAEvent` has the two fields that the
callbacks look at; here are the others.

* `ByteBuffer`     of `java.nio`, as far as `BAEvent` uses it;
* `BAEvent`        the object, and its methods, each with what it throws;
* `Method`, `invoke`   one call of an application, or of the finalizer;
* `Result.exposed`     the bytes of the event that a call hands out;
* `invoke_freed`       a freed event hands out nothing and is not deleted again.
-/

namespace BA

def BAEventType.index : BAEventType → Int
  | .startPublish => 100
  | .stopPublish => 101
  | .scopePublished => 102
  | .scopeUnpublished => 103
  | .publishedData => 104

def BAEventType.values : List BAEventType :=
  [.startPublish, .stopPublish, .scopePublished, .scopeUnpublished, .publishedData]

def BAEventType.getById (id : Int) : Option BAEventType :=
  BAEventType.values.find? fun ev => id == ev.index

namespace Wrapper

inductive JavaException where
  | illegalState
  | illegalArgument
  | nullPointer
  | negativeArraySize
  | indexOutOfBounds
  | bufferUnderflow
  | bufferOverflow
  | readOnlyBuffer
  deriving DecidableEq, Repr

/-! ## `java.nio.ByteBuffer` -/

/-- a buffer whose limit is its capacity -/
structure ByteBuffer where
  bytes : Bytes
  pos : Nat
  pos_le : pos ≤ bytes.length

namespace ByteBuffer

def ofBytes (bytes : Bytes) : ByteBuffer := ⟨bytes, 0, Nat.zero_le _⟩

def capacity (b : ByteBuffer) : Int := b.bytes.length

def rewind (b : ByteBuffer) : ByteBuffer := ofBytes b.bytes

def remaining (b : ByteBuffer) : Nat := b.bytes.length - b.pos

/-- `position(newPosition)` -/
def position (b : ByteBuffer) (newPosition : Int) : Except JavaException ByteBuffer :=
  if h : 0 ≤ newPosition ∧ newPosition.toNat ≤ b.bytes.length then
    .ok ⟨b.bytes, newPosition.toNat, h.2⟩
  else .error .illegalArgument

/-- the bytes that the relative `get` of `length` bytes copies -/
def get (b : ByteBuffer) (length : Nat) : Except JavaException Bytes :=
  if length ≤ b.remaining then .ok ((b.bytes.drop b.pos).take length)
  else .error .bufferUnderflow

/-- the absolute `get(pos)` -/
def getAt (b : ByteBuffer) (pos : Int) : Except JavaException UInt8 :=
  if h : 0 ≤ pos ∧ pos.toNat < b.bytes.length then .ok (b.bytes.get ⟨pos.toNat, h.2⟩)
  else .error .indexOutOfBounds

end ByteBuffer

/-- a buffer of the application that an event is written to -/
structure Target where
  remaining : Nat
  readOnly : Bool

/-- the bytes that `put(src)` copies -/
def Target.put (t : Target) (src : Option ByteBuffer) : Except JavaException Bytes :=
  if t.readOnly then .error .readOnlyBuffer
  else
    match src with
    | none => .error .nullPointer
    | some b =>
      if t.remaining < b.remaining then .error .bufferOverflow else .ok (b.bytes.drop b.pos)

/-! ## `BAEvent` -/

/-- the two implementations of `EventManagement` -/
inductive EventManagement where
  | baWrapper
  | baWrapperNB
  deriving DecidableEq, Repr

/-- `bawrapper` and `event_ptr` -/
structure Mapping where
  bawrapper : EventManagement
  eventPtr : Addr
  deriving DecidableEq, Repr

/-- `mapping` is set exactly when `mappedToNativeBuffer` is true -/
structure BAEvent extends BA.BAEvent where
  data : Option ByteBuffer
  dataLength : Int
  mapping : Option Mapping
  freed : Bool

namespace BAEvent

def new (type : Option BAEventType) (id : Bytes) (data : Option ByteBuffer) (dataLength : Int) :
    BAEvent := ⟨⟨type, id⟩, data, dataLength, none, false⟩

/-- the guard at the beginning of most accessors -/
def unlessFreed {α : Type} (e : BAEvent) (body : Except JavaException α) :
    Except JavaException α :=
  if e.freed then .error .illegalState else body

def getType (e : BAEvent) : Option BAEventType := e.type

def getId (e : BAEvent) : Except JavaException Bytes := e.unlessFreed (.ok e.id)

def getDataLength (e : BAEvent) : Except JavaException Int := e.unlessFreed (.ok e.dataLength)

/-- the bytes returned, and the event after the call: an underflow leaves the position at
`offset` -/
def getData (e : BAEvent) (offset length : Int) : Except JavaException Bytes × BAEvent :=
  if e.freed then (.error .illegalState, e)
  else if length < 0 then (.error .negativeArraySize, e)
  else
    match e.data with
    | none => (.error .nullPointer, e)
    | some b =>
      match b.position offset with
      | .error ex => (.error ex, e)
      | .ok b' =>
        match b'.get length.toNat with
        | .error ex => (.error ex, { e with data := some b' })
        | .ok retval => (.ok retval, { e with data := some b'.rewind })

def getDataCopy (e : BAEvent) : Except JavaException Bytes × BAEvent :=
  if e.freed then (.error .illegalState, e) else e.getData 0 e.dataLength

def getByte (e : BAEvent) (pos : Int) : Except JavaException UInt8 :=
  e.unlessFreed <|
    match e.data with
    | none => .error .nullPointer
    | some b => b.getAt pos

def writeTo (e : BAEvent) (buff : Option Target) : Except JavaException Bytes × BAEvent :=
  if e.freed then (.error .illegalState, e)
  else
    match buff with
    | none => (.error .nullPointer, e)
    | some t =>
      match t.put e.data with
      | .error ex => (.error ex, e)
      | .ok copied => (.ok copied, { e with data := e.data.map ByteBuffer.rewind })

def getDirectData (e : BAEvent) : Option ByteBuffer := e.data

def setNativeMemoryMappings (e : BAEvent) (wrapper : Option EventManagement) (ev : Addr) :
    Except JavaException BAEvent :=
  if e.mapping.isSome then .error .illegalState
  else
    match wrapper with
    | none => .error .nullPointer
    | some w => .ok { e with mapping := some ⟨w, ev⟩ }

/-- the event after the call, and the call of `deleteEvent` -/
def freeNativeBuffer (e : BAEvent) : BAEvent × Option Mapping :=
  if e.freed then (e, none)
  else
    match e.mapping with
    | none => (e, none)
    | some m => ({ e with id := [], data := none, dataLength := 0, freed := true }, some m)

def finalize (e : BAEvent) : BAEvent × Option Mapping := e.freeNativeBuffer

end BAEvent

/-! ## calls -/

inductive Method where
  | getType
  | getId
  | getDataLength
  | getDataCopy
  | getData (offset length : Int)
  | getByte (pos : Int)
  | writeTo (buff : Option Target)
  | getDirectData
  | freeNativeBuffer
  | finalize

inductive Result where
  | type (t : Option BAEventType)
  | length (n : Int)
  | bytes (b : Bytes)
  | buffer (b : Option ByteBuffer)
  | void
  | threw (ex : JavaException)

/-- the bytes of the event that a call returns or copies -/
def Result.exposed : Result → Bytes
  | .bytes b => b
  | .buffer (some b) => b.bytes
  | _ => []

def Result.ofExcept {α : Type} (value : α → Result) : Except JavaException α → Result
  | .ok a => value a
  | .error ex => .threw ex

/-- what a call leaves: its result, the event, and the call of `deleteEvent` in it -/
structure Outcome where
  result : Result
  event : BAEvent
  deleted : Option Mapping

/-- a call that does not change the event -/
def Outcome.read (e : BAEvent) (result : Result) : Outcome := ⟨result, e, none⟩

/-- a call that may move the position of the data -/
def Outcome.copy (c : Except JavaException Bytes × BAEvent) : Outcome :=
  ⟨.ofExcept .bytes c.1, c.2, none⟩

def Outcome.free (c : BAEvent × Option Mapping) : Outcome := ⟨.void, c.1, c.2⟩

def invoke (e : BAEvent) : Method → Outcome
  | .getType => .read e (.type e.getType)
  | .getId => .read e (.ofExcept .bytes e.getId)
  | .getDataLength => .read e (.ofExcept .length e.getDataLength)
  | .getDataCopy => .copy e.getDataCopy
  | .getData offset length => .copy (e.getData offset length)
  | .getByte pos => .read e (.ofExcept (fun b => .bytes [b]) (e.getByte pos))
  | .writeTo buff => .copy (e.writeTo buff)
  | .getDirectData => .read e (.buffer e.getDirectData)
  | .freeNativeBuffer => .free e.freeNativeBuffer
  | .finalize => .free e.finalize

/-! ## what a call can do -/

/-- the two events differ at most in the position of the data -/
structure Kept (e e' : BAEvent) : Prop where
  base : e'.toBAEvent = e.toBAEvent
  bytes : e'.data.map ByteBuffer.bytes = e.data.map ByteBuffer.bytes
  dataLength : e'.dataLength = e.dataLength
  mapping : e'.mapping = e.mapping
  freed : e'.freed = e.freed

theorem Kept.refl (e : BAEvent) : Kept e e := ⟨rfl, rfl, rfl, rfl, rfl⟩

theorem Kept.ofData {e : BAEvent} {b b' : ByteBuffer} (hb : e.data = some b)
    (h : b'.bytes = b.bytes) : Kept e { e with data := some b' } :=
  ⟨rfl, by rw [hb]; exact congrArg some h, rfl, rfl, rfl⟩

theorem position_bytes {b b' : ByteBuffer} {p : Int} (h : b.position p = .ok b') :
    b'.bytes = b.bytes := by
  unfold ByteBuffer.position at h
  split at h
  · cases h
    rfl
  · cases h

theorem getData_kept (e : BAEvent) (offset length : Int) : Kept e (e.getData offset length).2 := by
  unfold BAEvent.getData
  split
  · exact Kept.refl e
  split
  · exact Kept.refl e
  split
  · exact Kept.refl e
  · next b hb =>
    split
    · exact Kept.refl e
    · next b' hp =>
      have hbytes := position_bytes hp
      split
      · exact Kept.ofData hb hbytes
      · exact Kept.ofData hb hbytes

theorem getDataCopy_kept (e : BAEvent) : Kept e e.getDataCopy.2 := by
  unfold BAEvent.getDataCopy
  split
  · exact Kept.refl e
  · exact getData_kept e 0 e.dataLength

theorem writeTo_kept (e : BAEvent) (buff : Option Target) : Kept e (e.writeTo buff).2 := by
  unfold BAEvent.writeTo
  split
  · exact Kept.refl e
  split
  · exact Kept.refl e
  split
  · exact Kept.refl e
  · refine ⟨rfl, ?_, rfl, rfl, rfl⟩
    cases e.data with
    | none => rfl
    | some b => rfl

/-- the event after `freeNativeBuffer` has gone through -/
def BAEvent.afterFree (e : BAEvent) : BAEvent :=
  { e with id := [], data := none, dataLength := 0, freed := true }

theorem freeNativeBuffer_effect (e : BAEvent) :
    e.freeNativeBuffer = (e, none) ∨
    ∃ m, e.freed = false ∧ e.mapping = some m ∧ e.freeNativeBuffer = (e.afterFree, some m) := by
  unfold BAEvent.freeNativeBuffer
  cases hf : e.freed with
  | true => exact Or.inl rfl
  | false =>
    cases hm : e.mapping with
    | none => exact Or.inl rfl
    | some m => exact Or.inr ⟨m, rfl, rfl, by simp [BAEvent.afterFree, hm]⟩

/-- **What a call can do**: it leaves all but the position of the data, or it frees the event. -/
theorem invoke_effect (e : BAEvent) (m : Method) :
    (Kept e (invoke e m).event ∧ (invoke e m).deleted = none) ∨
    ∃ map, e.freed = false ∧ e.mapping = some map ∧
      invoke e m = ⟨.void, e.afterFree, some map⟩ := by
  have free : ∀ o, o = Outcome.free e.freeNativeBuffer →
      (Kept e o.event ∧ o.deleted = none) ∨
      ∃ map, e.freed = false ∧ e.mapping = some map ∧ o = ⟨.void, e.afterFree, some map⟩ := by
    intro o ho
    rcases freeNativeBuffer_effect e with h | ⟨map, hf, hm, h⟩
    · rw [ho, h]
      exact Or.inl ⟨Kept.refl e, rfl⟩
    · exact Or.inr ⟨map, hf, hm, by rw [ho, h]; rfl⟩
  cases m with
  | getType => exact Or.inl ⟨Kept.refl e, rfl⟩
  | getId => exact Or.inl ⟨Kept.refl e, rfl⟩
  | getDataLength => exact Or.inl ⟨Kept.refl e, rfl⟩
  | getDataCopy => exact Or.inl ⟨getDataCopy_kept e, rfl⟩
  | getData offset length => exact Or.inl ⟨getData_kept e offset length, rfl⟩
  | getByte pos => exact Or.inl ⟨Kept.refl e, rfl⟩
  | writeTo buff => exact Or.inl ⟨writeTo_kept e buff, rfl⟩
  | getDirectData => exact Or.inl ⟨Kept.refl e, rfl⟩
  | freeNativeBuffer => exact free _ rfl
  | finalize => exact free _ rfl

/-- a freed event hands out nothing, and is not deleted again -/
theorem invoke_freed {e : BAEvent} (hf : e.freed = true) (hd : e.data = none) (m : Method) :
    (invoke e m).result.exposed = [] ∧ (invoke e m).deleted = none := by
  have hno : (invoke e m).deleted = none := by
    rcases invoke_effect e m with ⟨_, h⟩ | ⟨_, hf', _⟩
    · exact h
    · rw [hf] at hf'
      cases hf'
  refine ⟨?_, hno⟩
  cases m with
  | getType | freeNativeBuffer | finalize => rfl
  | getId => simp [invoke, BAEvent.getId, BAEvent.unlessFreed, hf, Outcome.read, Result.ofExcept,
      Result.exposed]
  | getDataLength => simp [invoke, BAEvent.getDataLength, BAEvent.unlessFreed, hf, Outcome.read,
      Result.ofExcept, Result.exposed]
  | getDataCopy => simp [invoke, BAEvent.getDataCopy, hf, Outcome.copy, Result.ofExcept,
      Result.exposed]
  | getData offset length => simp [invoke, BAEvent.getData, hf, Outcome.copy, Result.ofExcept,
      Result.exposed]
  | getByte pos => simp [invoke, BAEvent.getByte, BAEvent.unlessFreed, hf, Outcome.read,
      Result.ofExcept, Result.exposed]
  | writeTo buff => simp [invoke, BAEvent.writeTo, hf, Outcome.copy, Result.ofExcept,
      Result.exposed]
  | getDirectData => simp [invoke, BAEvent.getDirectData, hd, Outcome.read, Result.exposed]

/-! ## what a call can hand out -/

def BAEvent.dataBytes (e : BAEvent) : Bytes := (e.data.map ByteBuffer.bytes).getD []

theorem take_drop_infix (l : Bytes) (i n : Nat) : (l.drop i).take n <:+: l :=
  (List.take_prefix n (l.drop i)).isInfix.trans (List.drop_suffix i l).isInfix

theorem getData_infix {e : BAEvent} {offset length : Int} {retval : Bytes}
    (h : (e.getData offset length).1 = .ok retval) : retval <:+: e.dataBytes := by
  unfold BAEvent.getData at h
  split at h
  · cases h
  split at h
  · cases h
  split at h
  · cases h
  next b hb =>
  split at h
  · cases h
  next b' hp =>
  split at h
  · cases h
  next bytes hget =>
  cases h
  unfold ByteBuffer.get at hget
  split at hget
  · cases hget
    rw [BAEvent.dataBytes, hb]
    show _ <:+: b.bytes
    rw [← position_bytes hp]
    exact take_drop_infix _ _ _
  · cases hget

theorem getDataCopy_infix {e : BAEvent} {retval : Bytes} (h : e.getDataCopy.1 = .ok retval) :
    retval <:+: e.dataBytes := by
  unfold BAEvent.getDataCopy at h
  split at h
  · cases h
  · exact getData_infix h

theorem getByte_infix {e : BAEvent} {pos : Int} {b : UInt8} (h : e.getByte pos = .ok b) :
    [b] <:+: e.dataBytes := by
  unfold BAEvent.getByte BAEvent.unlessFreed at h
  split at h
  · cases h
  split at h
  · cases h
  next data hd =>
  unfold ByteBuffer.getAt at h
  split at h
  · next hpos =>
    cases h
    rw [BAEvent.dataBytes, hd]
    have hone : (data.bytes.drop pos.toNat).take 1 = [data.bytes.get ⟨pos.toNat, hpos.2⟩] := by
      rw [List.drop_eq_getElem_cons hpos.2]
      rfl
    rw [← hone]
    exact take_drop_infix _ _ _
  · cases h

theorem writeTo_infix {e : BAEvent} {buff : Option Target} {copied : Bytes}
    (h : (e.writeTo buff).1 = .ok copied) : copied <:+: e.dataBytes := by
  unfold BAEvent.writeTo at h
  split at h
  · cases h
  split at h
  · cases h
  split at h
  · cases h
  next bytes hput =>
  cases h
  unfold Target.put at hput
  split at hput
  · cases hput
  split at hput
  · cases hput
  next b hb =>
  split at hput
  · cases hput
  · cases hput
    rw [BAEvent.dataBytes, hb]
    exact (List.drop_suffix _ _).isInfix

theorem ofExcept_infix {α : Type} {value : α → Result} {c : Except JavaException α} {l : Bytes}
    (h : ∀ a, c = .ok a → (value a).exposed <:+: l) : (Result.ofExcept value c).exposed <:+: l := by
  cases c with
  | error ex => exact List.nil_infix
  | ok a => exact h a rfl

/-- apart from `getId`, a call hands out a part of the data at most -/
theorem exposed_infix (e : BAEvent) {m : Method} (hm : m ≠ .getId) :
    (invoke e m).result.exposed <:+: e.dataBytes := by
  cases m with
  | getId => exact absurd rfl hm
  | getType | freeNativeBuffer | finalize => exact List.nil_infix
  | getDataLength => exact ofExcept_infix fun _ _ => List.nil_infix
  | getDataCopy => exact ofExcept_infix fun _ h => getDataCopy_infix h
  | getData offset length => exact ofExcept_infix fun _ h => getData_infix h
  | getByte pos => exact ofExcept_infix fun _ h => getByte_infix h
  | writeTo buff => exact ofExcept_infix fun _ h => writeTo_infix h
  | getDirectData =>
    show (Result.buffer e.data).exposed <:+: e.dataBytes
    unfold BAEvent.dataBytes
    cases e.data with
    | none => exact List.nil_infix
    | some b => exact List.infix_rfl

/-- a copy of the data of an event that nobody has read from -/
theorem getDataCopy_fresh {e : BAEvent} {payload : Bytes} (hf : e.freed = false)
    (hd : e.data = some (.ofBytes payload)) (hl : e.dataLength = payload.length) :
    e.getDataCopy.1 = .ok payload := by
  have hneg : ¬ (payload.length : Int) < 0 := by omega
  simp [BAEvent.getDataCopy, BAEvent.getData, hf, hd, hl, hneg, ByteBuffer.position,
    ByteBuffer.get, ByteBuffer.remaining, ByteBuffer.ofBytes]

end Wrapper
end BA
