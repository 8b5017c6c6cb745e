import BlackadderJNI.Native.Request
import BlackadderJNI.Wrapper.BAEvent
import BlackadderJNI.Wrapper.BAHelper

/-!
# The native object behind a wrapper

Translation of the life cycle of `BAWrapperNB.java` and of `BAWrapper.java`, with the parts of
their native halves that create and delete the object.  What a request does with its arguments is
in `Native.Request`; here it is a call that receives `baPtr`.

* `State`       the Java singleton, the native one, and every native call so far;
* `Prologue`    what a request method does in front of its native call;
* `step`        one Java call, for a class with the given constructor and request methods;
* `BAWrapperNB`, `BAWrapper`   the two classes.
-/

namespace BA
namespace Wrapper
namespace Lifetime

structure ItemArgs where
  scope : Option Bytes
  prefixScope : Option Bytes
  strat : UInt8
  strategyOptions : Option Bytes

/-- a native request, with the arguments that follow `ba_ptr` -/
inductive NativeRequest where
  | item (type : RequestType) (a : ItemArgs)
  | publishData (scope : Option Bytes) (strat : UInt8) (strategyOptions : Option Bytes)
      (dataBuffer : Option Bytes) (length : Int)
  | publishDataDirect (scope : Option Bytes) (strat : UInt8) (strategyOptions : Option Bytes)
      (buffer : Option ByteBuffer) (length : Int)

inductive NativeCall where
  /-- `constructed` tells whether `Instance` made a new object -/
  | createNewBa (userspace : Int) (ret : Addr) (constructed : Bool)
  | deleteBa (baPtr : Addr)
  | request (baPtr : Addr) (r : NativeRequest)

/-- an object of the class -/
structure Object where
  baPtr : Addr
  closed : Bool
  deriving DecidableEq, Repr

/-- how a Java call ends -/
inductive Result where
  | void
  | wrapper (w : Object)
  | throws (e : JavaException)
  | undefined
  deriving DecidableEq, Repr

structure State where
  configured : Bool
  userspace : Bool
  /-- the static field `instance` -/
  inst : Option Object
  /-- the native `m_pInstance` -/
  pInstance : Option Addr
  calls : List NativeCall
  result : Result

def init (configured userspace : Bool) : State := ⟨configured, userspace, none, none, [], .void⟩

/-! ## creation and deletion -/

/-- `c_create_new_ba`, with what `Instance` does -/
def cCreateNewBa (s : State) (userspace : Int) (fresh : Addr) : Addr × State :=
  match s.pInstance with
  | some p => (p, { s with calls := s.calls ++ [.createNewBa userspace p false] })
  | none =>
    (fresh, { s with
      pInstance := some fresh
      calls := s.calls ++ [.createNewBa userspace fresh true] })

/-- the constructor; `checked` when it tests for a null pointer -/
def construct (checked : Bool) (s : State) (fresh : Addr) : State :=
  if s.configured then
    let created := cCreateNewBa s (if s.userspace then 1 else 0) fresh
    if checked && created.1 == 0 then { created.2 with result := .throws .nullPointer }
    else
      let w : Object := ⟨created.1, false⟩
      { created.2 with inst := some w, result := .wrapper w }
  else { s with result := .throws .illegalState }

def getWrapper (checked : Bool) (s : State) (fresh : Addr) : State :=
  match s.inst with
  | none => construct checked s fresh
  | some w => { s with result := .wrapper w }

def disconnect (s : State) (w : Object) : State :=
  if w.closed then { s with result := .void }
  else
    { s with
      calls := s.calls ++ [.deleteBa w.baPtr]
      inst := some { w with closed := true }
      result := .void }

/-! ## requests -/

/-- a request method up to its native call -/
inductive Prologue where
  | call (r : NativeRequest)
  | throws (e : JavaException)
  | undefined

def request (s : State) (w : Object) : Prologue → State
  | .call r => { s with calls := s.calls ++ [.request w.baPtr r], result := .void }
  | .throws e => { s with result := .throws e }
  | .undefined => { s with result := .undefined }

inductive Act (ρ : Type) where
  /-- `fresh` is what `new` would return, never null -/
  | getWrapper (fresh : Addr)
  | disconnect
  | request (r : ρ)

/-- instance methods are called on the one object there is -/
def step {ρ : Type} (checked : Bool) (prologue : ρ → Prologue) (s : State) (a : Act ρ) :
    Option State :=
  if s.result = .undefined then none
  else
    match a with
    | .getWrapper fresh => if fresh = 0 then none else some (getWrapper checked s fresh)
    | .disconnect => s.inst.map (disconnect s)
    | .request r => s.inst.map fun w => request s w (prologue r)

end Lifetime

/-! ## `BAWrapperNB` -/

namespace BAWrapperNB
open Lifetime

inductive Request where
  | item (type : RequestType) (a : ItemArgs)
  | publishData (scope : Option Bytes) (strat : UInt8) (strategyOptions : Option Bytes)
      (jData : Option Bytes) (length : Int)
  | publishDataDirect (scope : Option Bytes) (strat : UInt8) (strategyOptions : Option Bytes)
      (buffer : Option ByteBuffer) (length : Int)

/-- the text for the debugger -/
def text (method : String) (a : ItemArgs) : Option String := do
  let prefixHex ← BAHelper.byteToHex a.prefixScope
  let scopeHex ← BAHelper.byteToHex a.scope
  return method ++ "(): " ++ prefixHex ++ scopeHex

/-- a request method prints, and then calls its native function -/
def item (method : String) (type : RequestType) (a : ItemArgs) : Prologue :=
  match text method a with
  | none => .undefined
  | some _ => .call (.item type a)

def publishScope : ItemArgs → Prologue := item "publishScope" .publishScope
def publishItem : ItemArgs → Prologue := item "publishItem" .publishInfo
def unpublishScope : ItemArgs → Prologue := item "unpublishScope" .unpublishScope
def unpublishItem : ItemArgs → Prologue := item "unpublishItem" .unpublishInfo
def subscribeScope : ItemArgs → Prologue := item "subscribeScope" .subscribeScope
def subscribeItem : ItemArgs → Prologue := item "subscribeItem" .subscribeInfo
def unsubscribeScope : ItemArgs → Prologue := item "unsubscribeScope" .unsubscribeScope
def unsubscribeItem : ItemArgs → Prologue := item "unsubscribeItem" .unsubscribeInfo

def publishData (scope : Option Bytes) (strat : UInt8) (strategyOptions jData : Option Bytes)
    (length : Int) : Prologue := .call (.publishData scope strat strategyOptions jData length)

def publishDataDirect (scope : Option Bytes) (strat : UInt8) (strategyOptions : Option Bytes)
    (buffer : Option ByteBuffer) (length : Int) : Prologue :=
  .call (.publishDataDirect scope strat strategyOptions buffer length)

def prologue : Request → Prologue
  | .item .publishScope a => publishScope a
  | .item .publishInfo a => publishItem a
  | .item .unpublishScope a => unpublishScope a
  | .item .unpublishInfo a => unpublishItem a
  | .item .subscribeScope a => subscribeScope a
  | .item .subscribeInfo a => subscribeItem a
  | .item .unsubscribeScope a => unsubscribeScope a
  | .item .unsubscribeInfo a => unsubscribeItem a
  | .publishData scope strat strategyOptions jData length =>
    publishData scope strat strategyOptions jData length
  | .publishDataDirect scope strat strategyOptions buffer length =>
    publishDataDirect scope strat strategyOptions buffer length

/-- the constructor tests `baPtr` -/
def step : State → Act Request → Option State := Lifetime.step true prologue

end BAWrapperNB

/-! ## `BAWrapper` -/

namespace BAWrapper
open Lifetime

inductive Request where
  | item (type : RequestType) (a : ItemArgs)
  | publishData (scope : Option Bytes) (strat : UInt8) (strategyOptions : Option Bytes)
      (jData : Option Bytes)
  | publishDataDirect (scope : Option Bytes) (strat : UInt8) (strategyOptions : Option Bytes)
      (buffer : Option ByteBuffer)

def item (type : RequestType) (a : ItemArgs) : Prologue := .call (.item type a)

def publishScope : ItemArgs → Prologue := item .publishScope
def publishItem : ItemArgs → Prologue := item .publishInfo
def unpublishScope : ItemArgs → Prologue := item .unpublishScope
def unpublishItem : ItemArgs → Prologue := item .unpublishInfo
def subscribeScope : ItemArgs → Prologue := item .subscribeScope
def subscribeItem : ItemArgs → Prologue := item .subscribeInfo
def unsubscribeScope : ItemArgs → Prologue := item .unsubscribeScope
def unsubscribeItem : ItemArgs → Prologue := item .unsubscribeInfo

/-- the length is `jData.length` -/
def publishData (scope : Option Bytes) (strat : UInt8) (strategyOptions : Option Bytes) :
    Option Bytes → Prologue
  | none => .throws .nullPointer
  | some jData => .call (.publishData scope strat strategyOptions (some jData) jData.length)

def publishDataDirect (scope : Option Bytes) (strat : UInt8) (strategyOptions : Option Bytes) :
    Option ByteBuffer → Prologue
  | none => .throws .nullPointer
  | some buffer =>
    .call (.publishDataDirect scope strat strategyOptions (some buffer) buffer.capacity)

def prologue : Request → Prologue
  | .item .publishScope a => publishScope a
  | .item .publishInfo a => publishItem a
  | .item .unpublishScope a => unpublishScope a
  | .item .unpublishInfo a => unpublishItem a
  | .item .subscribeScope a => subscribeScope a
  | .item .subscribeInfo a => subscribeItem a
  | .item .unsubscribeScope a => unsubscribeScope a
  | .item .unsubscribeInfo a => unsubscribeItem a
  | .publishData scope strat strategyOptions jData =>
    publishData scope strat strategyOptions jData
  | .publishDataDirect scope strat strategyOptions buffer =>
    publishDataDirect scope strat strategyOptions buffer

def step : State → Act Request → Option State := Lifetime.step false prologue

end BAWrapper

end Wrapper
end BA
