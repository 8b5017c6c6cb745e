import BlackadderJNI.Bytes
import BlackadderJNI.Native.SendPath

/-!
# The memory behind the queued messages

The send path of `SendPath`, with the blocks its messages point to.  A call of `publishData` runs
up to its critical section in one step, which reads the caller's array or buffer, and enters the
queue in another.

* `Cell`           a block: who owns it, its bytes, whether it is still allocated;
* `Msg`            a `msghdr`: its `iovec` array, and the blocks of the one or two segments;
* `publishArray`   `BAWrapperNB.publishData` of a `byte[]`: the bytes are copied to a new block;
* `publishDirect`  `publishData` of a direct `ByteBuffer`: the message points into the buffer;
* `path`           the selector and the waiting producers; an accepted message is freed.
-/

namespace BA
namespace PublishMemory
open SendPath (Tid)

/-- Java, or the native code in its call number `call` -/
inductive Owner where
  | java
  | native (call : Nat)
  deriving DecidableEq, Repr

structure Cell where
  owner : Owner
  bytes : Bytes
  live : Bool
  deriving DecidableEq, Repr

/-- where the payload of a message comes from -/
inductive Source where
  | none
  | array (a : Nat)
  | buffer (b : Addr)
  deriving DecidableEq, Repr

structure Msg where
  call : Nat
  source : Source
  iov : Addr
  header : Addr
  /-- base and length of the second segment -/
  payload : Option (Addr × Nat)
  /-- the first `length` bytes of the array or buffer when `publishData` was called -/
  snapshot : Bytes
  deriving DecidableEq, Repr

structure State where
  send : SendPath.State Msg
  memory : List Cell
  /-- the byte arrays of the Java heap -/
  arrays : List Bytes
  calls : Nat
  /-- calls before their critical section -/
  pending : List (Tid × Msg)
  /-- the accepted messages, with the payload bytes the socket got -/
  sent : List (Msg × Bytes)
  freed : List Addr
  deriving DecidableEq

def init : State where
  send := SendPath.init
  memory := []
  arrays := []
  calls := 0
  pending := []
  sent := []
  freed := []

/-! ## the Java side -/

/-- a write to an array; `ReleaseByteArrayElements` may also be one -/
def writeArray (s : State) (a : Nat) (bytes : Bytes) : Option State :=
  match s.arrays[a]? with
  | some array =>
    if bytes.length = array.length then some { s with arrays := s.arrays.set a bytes } else none
  | none => none

def allocateDirect (s : State) (capacity : Nat) : State :=
  { s with memory := s.memory ++ [⟨.java, List.replicate capacity 0, true⟩] }

def writeBuffer (s : State) (b : Addr) (bytes : Bytes) : Option State :=
  match s.memory[b]? with
  | some cell =>
    if cell.owner = .java ∧ bytes.length = cell.bytes.length then
      some { s with memory := s.memory.modify b fun c => { c with bytes := bytes } }
    else none
  | none => none

/-! ## calls -/

/-- a thread that is not inside a call -/
def Idle (s : State) (t : Tid) : Prop :=
  t ∉ s.pending.map Prod.fst ∧ t ∉ s.send.waiting ∧ t ∉ s.send.woken

instance (s : State) (t : Tid) : Decidable (Idle s t) := inferInstanceAs (Decidable (_ ∧ _ ∧ _))

/-- the call allocates `blocks` and fills in `msg` -/
def issue (s : State) (t : Tid) (blocks : List Bytes) (msg : Msg) : State :=
  { s with
    memory := s.memory ++ blocks.map fun bytes => ⟨.native s.calls, bytes, true⟩
    calls := s.calls + 1
    pending := (t, msg) :: s.pending }

/-- `push`: the `iovec` and the buffer -/
def request (s : State) (t : Tid) (buffer : Bytes) : Option State :=
  if Idle s t then
    some (issue s t [[], buffer]
      { call := s.calls, source := .none, iov := s.memory.length,
        header := s.memory.length + 1, payload := none, snapshot := [] })
  else none

/-- `c_publish_data`: the copy of the array, then the two `iovec`s and the buffer -/
def publishArray (s : State) (t : Tid) (buffer : Bytes) (a : Nat) (length : Nat) :
    Option State :=
  match s.arrays[a]? with
  | some array =>
    if Idle s t ∧ length ≤ array.length then
      some (issue s t [array.take length, [], buffer]
        { call := s.calls, source := .array a, iov := s.memory.length + 1,
          header := s.memory.length + 2, payload := some (s.memory.length, length),
          snapshot := array.take length })
    else none
  | none => none

/-- `c_publish_data_direct`: only the two `iovec`s and the buffer are new -/
def publishDirect (s : State) (t : Tid) (buffer : Bytes) (b : Addr) (length : Nat) :
    Option State :=
  match s.memory[b]? with
  | some cell =>
    if Idle s t ∧ cell.owner = .java ∧ length ≤ cell.bytes.length then
      some (issue s t [[], buffer]
        { call := s.calls, source := .buffer b, iov := s.memory.length,
          header := s.memory.length + 1, payload := some (b, length),
          snapshot := cell.bytes.take length })
    else none
  | none => none

/-- the critical section of `push` and `publish_data` -/
def enqueue (s : State) (t : Tid) (msg : Msg) : Option State :=
  if (t, msg) ∈ s.pending then
    (SendPath.enqueue s.send t msg).map fun send =>
      { s with send := send, pending := s.pending.erase (t, msg) }
  else none

/-! ## the selector -/

/-- the bytes of the second segment -/
def payloadBytes (memory : List Cell) (msg : Msg) : Bytes :=
  match msg.payload with
  | none => []
  | some (p, length) =>
    match memory[p]? with
    | some cell => cell.bytes.take length
    | none => []

/-- the arguments of `free` after a successful `sendmsg` -/
def Msg.blocks (msg : Msg) : List Addr :=
  msg.header :: (msg.payload.toList.map Prod.fst ++ [msg.iov])

def free (memory : List Cell) (p : Addr) : List Cell :=
  memory.modify p fun c => { c with live := false }

def release (s : State) (msg : Msg) : State :=
  { s with
    memory := msg.blocks.foldl free s.memory
    sent := s.sent ++ [(msg, payloadBytes s.memory msg)]
    freed := s.freed ++ msg.blocks }

def path (s : State) (a : SendPath.Act Msg) : Option State :=
  match a with
  | .enqueue _ _ => none
  | a =>
    (SendPath.step s.send a).map fun send =>
      match SendPath.accepted s.send a with
      | some msg => { release s msg with send := send }
      | none => { s with send := send }

inductive Act where
  | newArray (bytes : Bytes)
  | writeArray (a : Nat) (bytes : Bytes)
  | allocateDirect (capacity : Nat)
  | writeBuffer (b : Addr) (bytes : Bytes)
  | request (t : Tid) (buffer : Bytes)
  | publishArray (t : Tid) (buffer : Bytes) (a : Nat) (length : Nat)
  | publishDirect (t : Tid) (buffer : Bytes) (b : Addr) (length : Nat)
  | enqueue (t : Tid) (msg : Msg)
  | path (a : SendPath.Act Msg)

def step (s : State) : Act → Option State
  | .newArray bytes => some { s with arrays := s.arrays ++ [bytes] }
  | .writeArray a bytes => writeArray s a bytes
  | .allocateDirect capacity => some (allocateDirect s capacity)
  | .writeBuffer b bytes => writeBuffer s b bytes
  | .request t buffer => request s t buffer
  | .publishArray t buffer a length => publishArray s t buffer a length
  | .publishDirect t buffer b length => publishDirect s t buffer b length
  | .enqueue t msg => enqueue s t msg
  | .path a => path s a

end PublishMemory
end BA
