import BlackadderJNI.Bytes
import BlackadderJNI.Lib.Wire

/-!
# The nine requests, on the blocking and on the non-blocking library

Translation of the request methods of `Blackadder` (`blackadder.cpp`) and of `NB_Blackadder`
(`nb_blackadder.cpp`).

* `Check`, `ladder`     the validation: the first check that fails prints its text;
* `Blackadder.createAndSendBuffers`, `Blackadder.publishData`
                        the blocking encoders, which send a list of segments;
* `NBBlackadder.push`, `NBBlackadder.publishData`
                        the non-blocking encoders, which copy into one buffer (and a segment of
                        data) and put the message into `output_queue`;
* `Outcome`             text on the console, a message, or undefined behaviour.
-/

namespace BA
open Wire

/-- a pointer to bytes and their number, an `unsigned int` -/
structure Block where
  bytes : Bytes
  length_lt : bytes.length < 2 ^ 32

/-- the arguments of a scope or item request; `strOpt` is `none` for NULL -/
structure Args where
  id : Bytes
  prefixId : Bytes
  strategy : UInt8
  strOpt : Option Block

/-- the arguments of `publish_data` -/
structure DataArgs where
  id : Bytes
  strategy : UInt8
  strOpt : Option Block
  data : Block

def pursuitIdLen : Nat := 8

inductive RequestType where
  | publishScope
  | publishInfo
  | unpublishScope
  | unpublishInfo
  | subscribeScope
  | subscribeInfo
  | unsubscribeScope
  | unsubscribeInfo
  deriving DecidableEq, Repr

def RequestType.code : RequestType → UInt8
  | .publishScope => 0
  | .publishInfo => 1
  | .unpublishScope => 2
  | .unpublishInfo => 3
  | .subscribeScope => 4
  | .subscribeInfo => 5
  | .unsubscribeScope => 6
  | .unsubscribeInfo => 7

/-- `PUBLISH_DATA` -/
def publishDataCode : UInt8 := 8

/-- what a request does: it prints a text, hands a message with these segments to the socket or
to the queue, or its behaviour is undefined -/
inductive Outcome where
  | printed (text : String)
  | message (iov : List Bytes)
  | undefined
  deriving DecidableEq, Repr

/-! ## validation -/

inductive Check where
  | idSize
  | prefixSize
  | idEmpty
  | prefixEmpty
  | idFragments
  deriving DecidableEq, Repr

def Check.fails (a : Args) : Check → Bool
  | .idSize => a.id.length % pursuitIdLen != 0
  | .prefixSize => a.prefixId.length % pursuitIdLen != 0
  | .idEmpty => a.id.length == 0
  | .prefixEmpty => a.prefixId.length == 0
  | .idFragments => decide (a.id.length / pursuitIdLen > 1)

def Check.text : Check → String
  | .idSize => "wrong ID size"
  | .prefixSize => "wrong prefix_id size"
  | .idEmpty => "id cannot be empty"
  | .prefixEmpty => "prefix_id cannot be empty"
  | .idFragments => "id cannot consist of multiple fragments"

/-- the `if … else if … else` of a request method of the library `library` -/
def ladder (library request : String) (checks : List Check) (a : Args) (send : Outcome) :
    Outcome :=
  match checks.find? (Check.fails a) with
  | some check =>
    .printed (library ++ ": Could not send " ++ request ++ " request - " ++ check.text)
  | none => send

/-! ## memory -/

/-- the process: its pid, and what `malloc` leaves in fresh memory -/
structure Env where
  pid : Nat
  heap : Nat → UInt8

/-- the conversion of a `size_t` to `int` -/
def toInt (n : Nat) : Int := Int.bmod n (2 ^ 32)

/-- `malloc` of a size that was an `int`: a negative one is too large a `size_t` -/
def malloc (e : Env) (n : Int) : Option Bytes :=
  if n < 0 then none else some ((List.range n.toNat).map e.heap)

def sizeofNlmsghdr : Nat := 16

/-- the assignments to `nlmsg_len`, `nlmsg_pid`, `nlmsg_flags` and `nlmsg_type`; `nlmsg_seq`, at
offset 8, is not assigned -/
def fillHeader (e : Env) (nlmsgLen : Nat) (nlh : Bytes) : Option Bytes :=
  writes nlh [(0, leBytes 4 nlmsgLen), (12, leBytes 4 e.pid), (6, leBytes 2 1), (4, leBytes 2 0)]

def segment : Option Block → List Bytes
  | none => []
  | some strOpt => [strOpt.bytes]

/-- the bytes of the options, none for NULL -/
def optBytes (strOpt : Option Block) : Bytes := (segment strOpt).flatten

/-! ## the blocking library -/

namespace Blackadder

def library : String := "Blackadder Library"

def createAndSendBuffers (e : Env) (type : UInt8) (a : Args) : Outcome :=
  let idLen : UInt8 := UInt8.ofNat (a.id.length / pursuitIdLen)
  let prefixIdLen : UInt8 := UInt8.ofNat (a.prefixId.length / pursuitIdLen)
  let nlmsgLen :=
    match a.strOpt with
    | none => sizeofNlmsghdr + 1 + 1 + a.id.length + 1 + a.prefixId.length + 1
    | some strOpt =>
      sizeofNlmsghdr + 1 + 1 + a.id.length + 1 + a.prefixId.length + 1 + strOpt.bytes.length
  match (malloc e sizeofNlmsghdr).bind (fillHeader e nlmsgLen) with
  | none => .undefined
  | some nlh =>
    .message ([nlh, [type], [idLen], a.id, [prefixIdLen], a.prefixId, [a.strategy]]
      ++ segment a.strOpt)

def publishScope (e : Env) (a : Args) : Outcome :=
  ladder library "PUBLISH_SCOPE" [.idSize, .prefixSize, .idEmpty] a
    (createAndSendBuffers e RequestType.publishScope.code a)

def publishInfo (e : Env) (a : Args) : Outcome :=
  ladder library "PUBLISH_INFO" [.idSize, .prefixSize, .prefixEmpty, .prefixEmpty] a
    (createAndSendBuffers e RequestType.publishInfo.code a)

def unpublishScope (e : Env) (a : Args) : Outcome :=
  ladder library "UNPUBLISH_SCOPE" [.idSize, .prefixSize, .idEmpty, .idFragments] a
    (createAndSendBuffers e RequestType.unpublishScope.code a)

def unpublishInfo (e : Env) (a : Args) : Outcome :=
  ladder library "UNPUBLISH_INFO" [.idSize, .prefixSize, .idEmpty, .prefixEmpty, .idFragments] a
    (createAndSendBuffers e RequestType.unpublishInfo.code a)

def subscribeScope (e : Env) (a : Args) : Outcome :=
  ladder library "SUBSCRIBE_SCOPE" [.idSize, .prefixSize, .idEmpty, .idFragments] a
    (createAndSendBuffers e RequestType.subscribeScope.code a)

def subscribeInfo (e : Env) (a : Args) : Outcome :=
  ladder library "SUBSCRIBE_INFO" [.idSize, .prefixSize, .idEmpty, .prefixEmpty, .idFragments] a
    (createAndSendBuffers e RequestType.subscribeInfo.code a)

def unsubscribeScope (e : Env) (a : Args) : Outcome :=
  ladder library "UNSUBSCRIBE_SCOPE" [.idSize, .prefixSize, .idEmpty, .idFragments] a
    (createAndSendBuffers e RequestType.unsubscribeScope.code a)

def unsubscribeInfo (e : Env) (a : Args) : Outcome :=
  ladder library "UNSUBSCRIBE_INFO" [.idSize, .prefixSize, .idEmpty, .prefixEmpty, .idFragments]
    a (createAndSendBuffers e RequestType.unsubscribeInfo.code a)

def publishData (e : Env) (d : DataArgs) : Outcome :=
  if d.id.length % pursuitIdLen != 0 then
    .printed "Blackadder Library: Could not send  - wrong ID size"
  else
    let idLen : UInt8 := UInt8.ofNat (d.id.length / pursuitIdLen)
    let nlmsgLen :=
      match d.strOpt with
      | none => sizeofNlmsghdr + 1 + 1 + d.id.length + 1 + d.data.bytes.length
      | some strOpt =>
        sizeofNlmsghdr + 1 + 1 + d.id.length + 1 + strOpt.bytes.length + d.data.bytes.length
    match (malloc e sizeofNlmsghdr).bind (fillHeader e nlmsgLen) with
    | none => .undefined
    | some nlh =>
      .message ([nlh, [publishDataCode], [idLen], d.id, [d.strategy]]
        ++ segment d.strOpt ++ [d.data.bytes])

/-- the method called for a request type -/
def request (e : Env) : RequestType → Args → Outcome
  | .publishScope => publishScope e
  | .publishInfo => publishInfo e
  | .unpublishScope => unpublishScope e
  | .unpublishInfo => unpublishInfo e
  | .subscribeScope => subscribeScope e
  | .subscribeInfo => subscribeInfo e
  | .unsubscribeScope => unsubscribeScope e
  | .unsubscribeInfo => unsubscribeInfo e

end Blackadder

/-! ## the non-blocking library -/

namespace NBBlackadder

def library : String := "NB_Blackadder Library"

/-- the `memcpy` of the options, skipped for NULL -/
def optCopy (off : Nat) : Option Block → List (Nat × Bytes)
  | none => []
  | some strOpt => [(off, strOpt.bytes)]

/-- the message with the filled buffer first; a copy that leaves the buffer is undefined -/
def queued (buffer : Option Bytes) (data : List Bytes) : Outcome :=
  match buffer with
  | none => .undefined
  | some buffer => .message (buffer :: data)

/-- `buffer_length` is an `int`, and the offsets are those of the source -/
def push (e : Env) (type : UInt8) (a : Args) : Outcome :=
  let idLen : UInt8 := UInt8.ofNat (a.id.length / pursuitIdLen)
  let prefixIdLen : UInt8 := UInt8.ofNat (a.prefixId.length / pursuitIdLen)
  let bufferLength : Int :=
    match a.strOpt with
    | none => toInt (sizeofNlmsghdr + 1 + 1 + a.id.length + 1 + a.prefixId.length + 1)
    | some strOpt =>
      toInt (sizeofNlmsghdr + 1 + 1 + a.id.length + 1 + a.prefixId.length + 1
        + strOpt.bytes.length)
  let buffer := do
    let buffer ← malloc e bufferLength
    let buffer ← fillHeader e bufferLength.toNat buffer
    writes buffer
      ([(sizeofNlmsghdr, [type]),
        (sizeofNlmsghdr + 1, [idLen]),
        (sizeofNlmsghdr + 1 + 1, a.id),
        (sizeofNlmsghdr + 1 + 1 + a.id.length, [prefixIdLen]),
        (sizeofNlmsghdr + 1 + 1 + a.id.length + 1, a.prefixId),
        (sizeofNlmsghdr + 1 + 1 + a.id.length + 1 + a.prefixId.length, [a.strategy])]
      ++ optCopy (sizeofNlmsghdr + 1 + 1 + a.id.length + 1 + a.prefixId.length + 1) a.strOpt)
  queued buffer []

def publishScope (e : Env) (a : Args) : Outcome :=
  ladder library "PUBLISH_SCOPE" [.idSize, .prefixSize, .idEmpty] a
    (push e RequestType.publishScope.code a)

def publishInfo (e : Env) (a : Args) : Outcome :=
  ladder library "PUBLISH_INFO" [.idSize, .prefixSize, .prefixEmpty, .prefixEmpty] a
    (push e RequestType.publishInfo.code a)

def unpublishScope (e : Env) (a : Args) : Outcome :=
  ladder library "UNPUBLISH_SCOPE" [.idSize, .prefixSize, .idEmpty, .idFragments] a
    (push e RequestType.unpublishScope.code a)

def unpublishInfo (e : Env) (a : Args) : Outcome :=
  ladder library "UNPUBLISH_INFO" [.idSize, .prefixSize, .idEmpty, .prefixEmpty, .idFragments] a
    (push e RequestType.unpublishInfo.code a)

def subscribeScope (e : Env) (a : Args) : Outcome :=
  ladder library "SUBSCRIBE_SCOPE" [.idSize, .prefixSize, .idEmpty, .idFragments] a
    (push e RequestType.subscribeScope.code a)

def subscribeInfo (e : Env) (a : Args) : Outcome :=
  ladder library "SUBSCRIBE_INFO" [.idSize, .prefixSize, .idEmpty, .prefixEmpty, .idFragments] a
    (push e RequestType.subscribeInfo.code a)

def unsubscribeScope (e : Env) (a : Args) : Outcome :=
  ladder library "UNSUBSCRIBE_SCOPE" [.idSize, .prefixSize, .idEmpty, .idFragments] a
    (push e RequestType.unsubscribeScope.code a)

def unsubscribeInfo (e : Env) (a : Args) : Outcome :=
  ladder library "UNSUBSCRIBE_INFO" [.idSize, .prefixSize, .idEmpty, .prefixEmpty, .idFragments]
    a (push e RequestType.unsubscribeInfo.code a)

/-- no check of the identifier; the data stays a segment of its own -/
def publishData (e : Env) (d : DataArgs) : Outcome :=
  let idLen : UInt8 := UInt8.ofNat (d.id.length / pursuitIdLen)
  let bufferLength : Int :=
    match d.strOpt with
    | none => toInt (sizeofNlmsghdr + 1 + 1 + d.id.length + 1)
    | some strOpt => toInt (sizeofNlmsghdr + 1 + 1 + d.id.length + 1 + strOpt.bytes.length)
  let buffer := do
    let buffer ← malloc e bufferLength
    let buffer ← fillHeader e (bufferLength.toNat + d.data.bytes.length) buffer
    writes buffer
      ([(sizeofNlmsghdr, [publishDataCode]),
        (sizeofNlmsghdr + 1, [idLen]),
        (sizeofNlmsghdr + 1 + 1, d.id),
        (sizeofNlmsghdr + 1 + 1 + d.id.length, [d.strategy])]
      ++ optCopy (sizeofNlmsghdr + 1 + 1 + d.id.length + 1) d.strOpt)
  queued buffer [d.data.bytes]

/-- the method called for a request type -/
def request (e : Env) : RequestType → Args → Outcome
  | .publishScope => publishScope e
  | .publishInfo => publishInfo e
  | .unpublishScope => unpublishScope e
  | .unpublishInfo => unpublishInfo e
  | .subscribeScope => subscribeScope e
  | .subscribeInfo => subscribeInfo e
  | .unsubscribeScope => unsubscribeScope e
  | .unsubscribeInfo => unsubscribeInfo e

end NBBlackadder

end BA
