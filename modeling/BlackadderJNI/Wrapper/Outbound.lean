import BlackadderJNI.Lib.Mailbox
import BlackadderJNI.Lib.Matching
import BlackadderJNI.Native.Balance
import BlackadderJNI.Native.Framing

/-!
# From a request method to the socket

The native half of the request methods of `BAWrapperNB`, on the queue and the memory of
`PublishMemory`, with any number of Java threads.  A call runs up to its critical section in one
step.

* `callBlackadder`, `cPublishScope`, ..., `dataArgs`   the JNI functions: what they pass on of their
                 arrays;
* `step`         a call of a thread, or a step of the system underneath;
* `Request`      what a call asks for; `Carries`, `Written`: a queued message, and the bytes that
                 the socket got, for a request;
* `Sim`          the system against a mailbox of requests;
* `written_in_order`   what the socket gets decodes to the requests of each thread, in its order.
-/

namespace BA

deriving instance DecidableEq for Block, Args, DataArgs

namespace Wrapper

/-! ## the JNI functions -/

/-- an array of Java -/
structure JByteArray where
  bytes : Bytes
  length_lt : bytes.length < 2 ^ 31
  deriving DecidableEq

theorem JByteArray.length_lt_uint (a : JByteArray) : a.bytes.length < 2 ^ 32 :=
  a.length_lt.trans (by norm_num)

/-- NULL for no options, and for options without bytes -/
def strOpt : Option JByteArray → Option Block
  | none => none
  | some jstrOpt =>
    if jstrOpt.bytes.length > 0 then some ⟨jstrOpt.bytes, jstrOpt.length_lt_uint⟩ else none

def callBlackadder (baCall : Args → BA.Outcome) (id idPrefix : JByteArray) (strategy : UInt8)
    (jstrOpt : Option JByteArray) : BA.Outcome :=
  baCall ⟨id.bytes, idPrefix.bytes, strategy, strOpt jstrOpt⟩

/-- the arguments of `publish_data` in `c_publish_data` and in `c_publish_data_direct` -/
def dataArgs (name : JByteArray) (strategy : UInt8) (jstrOpt : Option JByteArray)
    (data : JByteArray) : DataArgs :=
  ⟨name.bytes, strategy, strOpt jstrOpt, ⟨data.bytes, data.length_lt_uint⟩⟩

namespace BAWrapperNB

section
variable (e : Env)

def cPublishScope := callBlackadder (NBBlackadder.publishScope e)
def cPublishItem := callBlackadder (NBBlackadder.publishInfo e)
def cUnpublishScope := callBlackadder (NBBlackadder.unpublishScope e)
def cUnpublishItem := callBlackadder (NBBlackadder.unpublishInfo e)
def cSubscribeScope := callBlackadder (NBBlackadder.subscribeScope e)
def cSubscribeItem := callBlackadder (NBBlackadder.subscribeInfo e)
def cUnsubscribeScope := callBlackadder (NBBlackadder.unsubscribeScope e)
def cUnsubscribeItem := callBlackadder (NBBlackadder.unsubscribeInfo e)

/-- the function called for a request type -/
def cItem : RequestType → JByteArray → JByteArray → UInt8 → Option JByteArray → BA.Outcome
  | .publishScope => cPublishScope e
  | .publishInfo => cPublishItem e
  | .unpublishScope => cUnpublishScope e
  | .unpublishInfo => cUnpublishItem e
  | .subscribeScope => cSubscribeScope e
  | .subscribeInfo => cSubscribeItem e
  | .unsubscribeScope => cUnsubscribeScope e
  | .unsubscribeInfo => cUnsubscribeItem e

theorem cItem_eq (type : RequestType) :
    cItem e type = callBlackadder (NBBlackadder.request e type) := by
  cases type <;> rfl

end

end BAWrapperNB

namespace Outbound
open Run PublishMemory
open SendPath (Tid)

/-! ## the system -/

/-- a call of a native method; `data` is what the array `a`, or the buffer `b`, holds up to the
`length` of the call -/
inductive Call where
  | item (type : RequestType) (id idPrefix : JByteArray) (strategy : UInt8)
      (jstrOpt : Option JByteArray)
  | publishData (name : JByteArray) (strategy : UInt8) (jstrOpt : Option JByteArray) (a : Nat)
      (data : JByteArray)
  | publishDataDirect (name : JByteArray) (strategy : UInt8) (jstrOpt : Option JByteArray)
      (b : Addr) (data : JByteArray)

structure State where
  memory : PublishMemory.State
  console : List String
  /-- the messages that the socket accepted -/
  socket : List Bytes

def init : State := ⟨PublishMemory.init, [], []⟩

/-- the bytes of the first segment -/
def headerBytes (memory : List Cell) (msg : Msg) : Bytes :=
  match memory[msg.header]? with
  | some cell => cell.bytes
  | none => []

/-- what `sendmsg` reads -/
def datagram (memory : List Cell) (msg : Msg) : Bytes :=
  headerBytes memory msg ++ payloadBytes memory msg

/-- a call up to its critical section; no step where its behaviour is undefined -/
def call (pid : Nat) (s : State) (t : Tid) (heap : Nat → UInt8) : Call → Option State
  | .item type id idPrefix strategy jstrOpt =>
    match BAWrapperNB.cItem ⟨pid, heap⟩ type id idPrefix strategy jstrOpt with
    | .printed text =>
      if Idle s.memory t then some { s with console := s.console ++ [text] } else none
    | .message [buffer] =>
      (PublishMemory.request s.memory t buffer).map fun memory => { s with memory := memory }
    | _ => none
  | .publishData name strategy jstrOpt a data =>
    match NBBlackadder.publishData ⟨pid, heap⟩ (dataArgs name strategy jstrOpt data) with
    | .message [buffer, _] =>
      if (s.memory.arrays[a]?).map (List.take data.bytes.length) = some data.bytes then
        (publishArray s.memory t buffer a data.bytes.length).map fun memory =>
          { s with memory := memory }
      else none
    | _ => none
  | .publishDataDirect name strategy jstrOpt b data =>
    match NBBlackadder.publishData ⟨pid, heap⟩ (dataArgs name strategy jstrOpt data) with
    | .message [buffer, _] =>
      if (s.memory.memory[b]?).map (fun c => c.bytes.take data.bytes.length) =
          some data.bytes then
        (publishDirect s.memory t buffer b data.bytes.length).map fun memory =>
          { s with memory := memory }
      else none
    | _ => none

/-- the message that the socket accepts in a step -/
def accepted (s : PublishMemory.State) : PublishMemory.Act → Option Msg
  | .path a => SendPath.accepted s.send a
  | _ => none

/-- a step that begins no call -/
def other (s : State) (a : PublishMemory.Act) : Option State :=
  if a.isCall then none
  else (PublishMemory.step s.memory a).map fun memory =>
    { s with
      memory := memory
      socket := s.socket ++ (accepted s.memory a).toList.map (datagram s.memory.memory) }

inductive Act where
  | call (t : Tid) (heap : Nat → UInt8) (c : Call)
  | other (a : PublishMemory.Act)

def step (pid : Nat) (s : State) : Act → Option State
  | .call t heap c => call pid s t heap c
  | .other a => other s a

/-! ## requests -/

inductive Request where
  | item (type : RequestType) (a : Args)
  | data (d : DataArgs)
  deriving DecidableEq

def Request.outcome (e : Env) : Request → BA.Outcome
  | .item type a => NBBlackadder.request e type a
  | .data d => NBBlackadder.publishData e d

def Request.body : Request → Body
  | .item type a => a.body type
  | .data d => d.body

/-- the numbers of fragments fit their count bytes; `publish_data` checks nothing -/
def Request.Fits : Request → Prop
  | .item _ a => a.id.length / 8 < 256 ∧ a.prefixId.length / 8 < 256
  | .data d => 8 ∣ d.id.length ∧ d.id.length / 8 < 256 ∧ d.total < 2 ^ 32

/-- what a call asks for; nothing where the checks reject it -/
def Call.request : Call → Option Request
  | .item type id idPrefix strategy jstrOpt =>
    let a : Args := ⟨id.bytes, idPrefix.bytes, strategy, strOpt jstrOpt⟩
    if Accepted type a then some (.item type a) else none
  | .publishData name strategy jstrOpt _ data
  | .publishDataDirect name strategy jstrOpt _ data =>
    some (.data (dataArgs name strategy jstrOpt data))

def Act.requests : Act → List (Tid × Request)
  | .call t _ c => c.request.toList.map (t, ·)
  | .other _ => []

/-- the thread whose critical section a step is -/
def Act.entered : Act → List Tid
  | .other (.enqueue t _) => [t]
  | _ => []

/-- a message that points into a Java buffer enters the queue -/
def Act.EntersDirect : Act → Prop
  | .other a => PublishMemory.EntersDirect a
  | .call _ _ _ => False

/-- the bytes `bytes` are a message of the request -/
structure Written (pid : Nat) (bytes : Bytes) (q : Request) : Prop where
  emitted : ∃ heap iov, q.outcome ⟨pid, heap⟩ = .message iov ∧ bytes = iov.flatten
  decodes : decode bytes = some ⟨bytes.length, q.body⟩ ↔ q.Fits

/-! ## what one call does -/

theorem request_message {e : Env} {type : RequestType} {a : Args} {iov : List Bytes}
    (h : NBBlackadder.request e type a = .message iov) :
    Accepted type a ∧ ∃ buffer, iov = [buffer] := by
  have hacc : Accepted type a := Emits.accepted (Or.inr h)
  refine ⟨hacc, ?_⟩
  rw [request_nb, ladder_accepted hacc, push_eq] at h
  split_ifs at h
  cases h
  exact ⟨_, rfl⟩

theorem request_printed {e : Env} {type : RequestType} {a : Args} {text : String}
    (h : NBBlackadder.request e type a = .printed text) : ¬ Accepted type a := by
  intro hacc
  rw [request_nb, ladder_accepted hacc, push_eq] at h
  split_ifs at h

theorem publishData_message {e : Env} {d : DataArgs} {iov : List Bytes}
    (h : NBBlackadder.publishData e d = .message iov) : ∃ buffer, iov = [buffer, d.data.bytes] := by
  rw [publishData_nb_eq] at h
  split_ifs at h
  cases h
  exact ⟨_, rfl⟩

theorem written_of_outcome {pid : Nat} {q : Request} {heap : Nat → UInt8} {iov : List Bytes}
    (h : q.outcome ⟨pid, heap⟩ = .message iov) : Written pid iov.flatten q := by
  refine ⟨⟨heap, iov, h, rfl⟩, ?_⟩
  cases q with
  | item type a =>
    have htotal : a.total < 2 ^ 32 := by
      have h' := h
      dsimp only [Request.outcome] at h'
      rw [request_nb, ladder_accepted (request_message h).1, push_eq] at h'
      split_ifs at h' with hlt
      omega
    exact (decode_emitted (Or.inr h)).trans
      ⟨fun hf => ⟨hf.1, hf.2.1⟩, fun hf => ⟨hf.1, hf.2, htotal⟩⟩
  | data d => exact decode_emitted_data (Or.inr h)

/-! ## messages and requests -/

/-- the message is one for the request; its payload is as it was at the call -/
def Carries (pid : Nat) (m : List Cell) (msg : Msg) (q : Request) : Prop :=
  ∃ heap c rest, native m msg.header = some c ∧
    q.outcome ⟨pid, heap⟩ = .message (c.bytes :: rest) ∧ rest.flatten = msg.snapshot

theorem Carries.frozen {pid : Nat} {m m' : List Cell} {msg : Msg} {q : Request}
    (h : Carries pid m msg q) (hm : Frozen m m') : Carries pid m' msg q := by
  obtain ⟨heap, c, rest, hc, hq, hrest⟩ := h
  obtain ⟨c', hc', _, hbytes⟩ := hm msg.header c hc
  exact ⟨heap, c', rest, hc', hbytes ▸ hq, hrest⟩

/-- what `sendmsg` reads of a message whose payload did not change -/
theorem Carries.written {pid : Nat} {m : List Cell} {msg : Msg} {q : Request}
    (h : Carries pid m msg q) (hpay : payloadBytes m msg = msg.snapshot) :
    Written pid (datagram m msg) q := by
  obtain ⟨heap, c, rest, hc, hq, hrest⟩ := h
  have hbytes : datagram m msg = (c.bytes :: rest).flatten := by
    unfold datagram headerBytes
    rw [(native_some.mp hc).1, hpay, ← hrest]
    rfl
  exact hbytes ▸ written_of_outcome hq

/-- a call that was accepted: it allocates, and its message carries its request -/
theorem call_effect {pid : Nat} {s s' : State} {t : Tid} {heap : Nat → UInt8} {c : Call}
    (h : call pid s t heap c = some s') :
    s'.socket = s.socket ∧
    ((c.request = none ∧ s'.memory = s.memory) ∨
      ∃ q blocks msg a, c.request = some q ∧ Idle s.memory t ∧
        PublishMemory.step s.memory a = some s'.memory ∧ a.isCall = true ∧
        s'.memory = issue s.memory t blocks msg ∧ Carries pid s'.memory.memory msg q) := by
  cases c with
  | item type id idPrefix strategy jstrOpt =>
    dsimp only [call] at h
    rw [BAWrapperNB.cItem_eq] at h
    dsimp only [callBlackadder] at h
    split at h
    · next text ho =>
      split at h
      · cases h
        exact ⟨rfl, Or.inl ⟨if_neg (request_printed ho), rfl⟩⟩
      · cases h
    · next buffer ho =>
      obtain ⟨memory, hm, rfl⟩ := Option.map_eq_some_iff.mp h
      have hm' := hm
      unfold PublishMemory.request at hm'
      split at hm'
      · next hidle =>
        cases hm'
        refine ⟨rfl, Or.inr ⟨_, _, _, .request t buffer, if_pos (request_message ho).1, hidle, hm,
          rfl, rfl, heap, ⟨.native s.memory.calls, buffer, true⟩, [], ?_, ho, rfl⟩⟩
        exact native_of_owner (k := s.memory.calls) (by simp [issue]) rfl
      · cases hm'
    · cases h
  | publishData name strategy jstrOpt a data =>
    dsimp only [call] at h
    split at h
    · next buffer rest ho =>
      obtain ⟨_, e⟩ := publishData_message ho
      obtain rfl : rest = data.bytes := by cases e; rfl
      split at h
      · next hdata =>
        obtain ⟨memory, hm, rfl⟩ := Option.map_eq_some_iff.mp h
        have hm' := hm
        unfold publishArray at hm'
        split at hm'
        · next array ha =>
          split at hm'
          · next hc =>
            cases hm'
            rw [ha] at hdata
            have hsnap : array.take data.bytes.length = data.bytes := Option.some.inj hdata
            refine ⟨rfl, Or.inr ⟨_, _, _, .publishArray t buffer a data.bytes.length, rfl, hc.1, hm,
              rfl, rfl, heap, ⟨.native s.memory.calls, buffer, true⟩, [data.bytes], ?_, ho, ?_⟩⟩
            · exact native_of_owner (k := s.memory.calls) (by simp [issue]) rfl
            · rw [List.flatten_singleton]
              exact hsnap.symm
          · cases hm'
        · cases hm'
      · cases h
    · cases h
  | publishDataDirect name strategy jstrOpt b data =>
    dsimp only [call] at h
    split at h
    · next buffer rest ho =>
      obtain ⟨_, e⟩ := publishData_message ho
      obtain rfl : rest = data.bytes := by cases e; rfl
      split at h
      · next hdata =>
        obtain ⟨memory, hm, rfl⟩ := Option.map_eq_some_iff.mp h
        have hm' := hm
        unfold publishDirect at hm'
        split at hm'
        · next cell hb =>
          split at hm'
          · next hc =>
            cases hm'
            rw [hb] at hdata
            have hsnap : cell.bytes.take data.bytes.length = data.bytes := Option.some.inj hdata
            refine ⟨rfl, Or.inr ⟨_, _, _, .publishDirect t buffer b data.bytes.length, rfl, hc.1,
              hm, rfl, rfl, heap, ⟨.native s.memory.calls, buffer, true⟩, [data.bytes], ?_, ho, ?_⟩⟩
            · exact native_of_owner (k := s.memory.calls) (by simp [issue]) rfl
            · rw [List.flatten_singleton]
              exact hsnap.symm
          · cases hm'
        · cases hm'
      · cases h
    · cases h

/-! ## the simulation -/

/-- the system and a mailbox of requests -/
structure Sim (pid : Nat) (s : State) (b : Mailbox Tid Request) : Prop where
  pending : List.Forall₂ (fun e f => e.1 = f.1 ∧ Carries pid s.memory.memory e.2 f.2)
    s.memory.pending b.pending
  queued : List.Forall₂ (fun msg f => Carries pid s.memory.memory msg f.2)
    s.memory.send.outputQueue b.queued
  taken : List.Forall₂ (fun bytes f => Written pid bytes f.2) s.socket b.taken

theorem Sim.init (pid : Nat) : Sim pid init Mailbox.empty := ⟨.nil, .nil, .nil⟩

theorem Sim.pending_frozen {pid : Nat} {s : State} {b : Mailbox Tid Request} (h : Sim pid s b)
    {m' : List Cell} (hm : Frozen s.memory.memory m') :
    List.Forall₂ (fun e f => e.1 = f.1 ∧ Carries pid m' e.2 f.2) s.memory.pending b.pending :=
  h.pending.imp fun _ _ he => ⟨he.1, he.2.frozen hm⟩

theorem Sim.queued_frozen {pid : Nat} {s : State} {b : Mailbox Tid Request} (h : Sim pid s b)
    {m' : List Cell} (hm : Frozen s.memory.memory m') :
    List.Forall₂ (fun msg f => Carries pid m' msg f.2) s.memory.send.outputQueue b.queued :=
  h.queued.imp fun _ _ he => he.frozen hm

/-- the threads inside a call are those of the mailbox -/
theorem Sim.senders {pid : Nat} {s : State} {b : Mailbox Tid Request} (h : Sim pid s b) :
    s.memory.pending.map Prod.fst = b.pending.map Prod.fst :=
  Matching.map_eq (fun _ _ he => he.1) h.pending

/-- a step of the mailbox, or none, with what it begins and who enters -/
def Answers (b c : Mailbox Tid Request) (requests : List (Tid × Request)) (entered : List Tid) :
    Prop :=
  ∃ bs, run Mailbox.step b bs = some c ∧ bs.flatMap Mailbox.Act.called = requests ∧
    (bs.flatMap Mailbox.Act.entered).map Prod.fst = entered

theorem Answers.refl (b : Mailbox Tid Request) : Answers b b [] [] := ⟨[], rfl, rfl, rfl⟩

section
variable {pid : Nat} {s s' : State} {b : Mailbox Tid Request}

theorem not_entersDirect {a : PublishMemory.Act} (ha : a.isCall = true) :
    ¬ PublishMemory.EntersDirect a := by
  cases a <;> first | exact id | cases ha

theorem sim_call {t : Tid} {heap : Nat → UInt8} {c : Call} (hs : Sim pid s b)
    (hi : Inv s.memory) (h : call pid s t heap c = some s') :
    ∃ d, Answers b d (c.request.toList.map (t, ·)) [] ∧ Sim pid s' d ∧ Inv s'.memory := by
  obtain ⟨hsocket,
    ⟨hnone, hmem⟩ | ⟨q, blocks, msg, a, hq, hidle, hstep, hcall, hissue, hcarries⟩⟩ := call_effect h
  · refine ⟨b, hnone ▸ .refl b, ⟨?_, ?_, hsocket ▸ hs.taken⟩, hmem ▸ hi⟩
    · exact hmem ▸ hs.pending
    · exact hmem ▸ hs.queued
  · have hfrozen := step_frozen hstep
    have hfree : t ∉ b.pending.map Prod.fst := hs.senders ▸ hidle.1
    refine ⟨{ b with pending := (t, q) :: b.pending }, ⟨[.call t q], ?_, ?_, rfl⟩,
      ⟨?_, ?_, hsocket ▸ hs.taken⟩, inv_step (not_entersDirect hcall) hi hstep⟩
    · show (Mailbox.step b (.call t q)).bind _ = _
      rw [Mailbox.step, if_neg hfree]
      rfl
    · rw [hq]
      rfl
    · have hold := hs.pending_frozen hfrozen
      rw [hissue] at hcarries hold ⊢
      exact .cons ⟨rfl, hcarries⟩ hold
    · have hold := hs.queued_frozen hfrozen
      rw [hissue] at hold ⊢
      exact hold

theorem accepted_of_queue {t u : SendPath.State Msg} {a : SendPath.Act Msg} {msg : Msg}
    (h : SendPath.step t a = some u) (hq : t.outputQueue = msg :: u.outputQueue) :
    SendPath.accepted t a = some msg := by
  obtain ⟨msg', ha, hq', _⟩ | ⟨_, hq', _⟩ := SendPath.queue_step h
  · rw [hq] at hq'
    rw [ha, (List.cons.inj hq').1]
  · have hlen := congrArg List.length hq'
    rw [hq, List.length_append, List.length_cons] at hlen
    omega

theorem accepted_of_same {t u : SendPath.State Msg} {a : SendPath.Act Msg}
    (h : SendPath.step t a = some u) (hq : u.outputQueue = t.outputQueue) :
    SendPath.accepted t a = none := by
  obtain ⟨msg', _, hq', _⟩ | ⟨ha, _, _⟩ := SendPath.queue_step h
  · have hlen := congrArg List.length hq'
    rw [hq, List.length_cons] at hlen
    omega
  · exact ha

theorem sim_other {a : PublishMemory.Act} (hs : Sim pid s b) (hb : b.Single) (hi : Inv s.memory)
    (hn : ¬ PublishMemory.EntersDirect a) (h : other s a = some s') :
    ∃ d, Answers b d [] (Act.entered (.other a)) ∧ Sim pid s' d ∧ Inv s'.memory := by
  unfold other at h
  split at h
  · cases h
  next hcall =>
  obtain ⟨m', hstep, rfl⟩ := Option.map_eq_some_iff.mp h
  have hi' := inv_step hn hi hstep
  have hfrozen := step_frozen hstep
  have hpending := hs.pending_frozen hfrozen
  have hqueued := hs.queued_frozen hfrozen
  by_cases hjava : a.isJava = true
  · have hon := step_onJava hjava hstep
    have hnone : accepted s.memory a = none := by cases a <;> first | rfl | cases hjava
    have hquiet : Act.entered (.other a) = [] := by cases a <;> first | rfl | cases hjava
    rw [hquiet]
    refine ⟨b, .refl b, ⟨hon.pending ▸ hpending, hon.send ▸ hqueued, ?_⟩, hi'⟩
    rw [hnone, Option.toList_none, List.map_nil, List.append_nil]
    exact hs.taken
  cases step_effect hstep with
  | java hsilent | issue hsilent =>
    cases a <;> simp_all [PublishMemory.Act.isJava, PublishMemory.Act.isCall,
      PublishMemory.Act.onPath]
  | enqueue t msg hmem send hsend e =>
    obtain ⟨hq, _⟩ := SendPath.enqueue_eff hsend
    subst e
    obtain ⟨⟨t', q⟩, hq', ⟨rfl, hcar⟩, herase⟩ := Matching.erase (fun _ _ he => he.1) hpending
      (hs.senders ▸ hb) hmem
    refine ⟨{ b with pending := b.pending.erase (t, q), queued := b.queued ++ [(t, q)] },
      ⟨[.enter t q], ?_, rfl, rfl⟩, ⟨herase, ?_, ?_⟩, hi'⟩
    · show (Mailbox.step b (.enter t q)).bind _ = _
      rw [Mailbox.step, if_pos hq']
      rfl
    · show List.Forall₂ _ send.outputQueue _
      rw [hq]
      exact Matching.snoc hqueued hcar
    · show List.Forall₂ _ (s.socket ++ []) _
      rw [List.append_nil]
      exact hs.taken
  | sent a msg send hsend hq _ e =>
    subst e
    have hacc : accepted s.memory (.path a) = some msg := accepted_of_queue hsend hq
    have hold := hs.queued
    rw [hq] at hqueued hold
    obtain ⟨pending, taken, queued⟩ := b
    obtain @⟨⟩ | @⟨_, f, _, rest, hcar, hrest⟩ := hqueued
    have hmsg : msg ∈ s.memory.send.outputQueue := hq ▸ List.mem_cons_self
    have hpay := (hi.holds msg (List.mem_append_left _ hmsg) (hi.queued msg hmsg)).payload
    obtain @⟨⟩ | @⟨_, _, _, _, hcar₀, _⟩ := hold
    refine ⟨⟨pending, taken ++ [f], rest⟩, ⟨[.take], rfl, rfl, rfl⟩, ⟨hpending, hrest, ?_⟩, hi'⟩
    rw [hacc]
    exact Matching.snoc hs.taken (hcar₀.written hpay)
  | path a send hsend hq _ e =>
    subst e
    have hacc : accepted s.memory (.path a) = none := accepted_of_same hsend hq
    refine ⟨b, .refl b, ⟨hpending, ?_, ?_⟩, hi'⟩
    · show List.Forall₂ _ send.outputQueue _
      exact hq ▸ hqueued
    · rw [hacc, Option.toList_none, List.map_nil, List.append_nil]
      exact hs.taken

end

/-- **A run without direct messages is a run of a mailbox of requests.** -/
theorem run_sim_mailbox {pid : Nat} {as : List Act} {s : State}
    (h : run (step pid) init as = some s) (hdirect : ∀ a ∈ as, ¬ a.EntersDirect) :
    ∃ b, Answers Mailbox.empty b (as.flatMap Act.requests) (as.flatMap Act.entered) ∧
      Sim pid s b := by
  refine (run_hist (I := fun t done => (∀ a ∈ done, ¬ a.EntersDirect) → ∃ b,
    Answers Mailbox.empty b (done.flatMap Act.requests) (done.flatMap Act.entered) ∧
      Sim pid t b ∧ Inv t.memory) ?_ (fun t done a u ih hu hno => ?_) h hdirect).imp
    fun b hb => ⟨hb.1, hb.2.1⟩
  · exact fun _ => ⟨Mailbox.empty, .refl _, .init pid, Inv.init⟩
  · obtain ⟨b, ⟨bs, hbs, hcalled, hentered⟩, hsim, hinv⟩ :=
      ih fun a ha => hno a (List.mem_append_left _ ha)
    have ha := hno a (List.mem_append_right _ List.mem_cons_self)
    obtain ⟨d, ⟨cs, hcs, hcalled', hentered'⟩, hsim', hinv'⟩ :
        ∃ d, Answers b d a.requests a.entered ∧ Sim pid u d ∧ Inv u.memory := by
      cases a with
      | call t heap c => exact sim_call hsim hinv hu
      | other a => exact sim_other hsim (Mailbox.run_single hbs) hinv ha hu
    refine ⟨d, ⟨bs ++ cs, run_trans _ hbs hcs, ?_, ?_⟩, hsim', hinv'⟩
    · rw [List.flatMap_append, hcalled, hcalled', List.flatMap_append]
      simp
    · rw [List.flatMap_append, List.map_append, hentered, hentered', List.flatMap_append]
      simp

/-- **What the socket gets.**  In every run in which no direct message enters the queue, the socket
got one message for each request that left the queue, in the order of the critical sections; it
decodes to its request exactly when that fits.  Of each thread these are, in its order, the
requests that the checks accepted: first those the socket got, then those in the queue, then the
one whose call has not entered its critical section. -/
theorem written_in_order (pid : Nat) (as : List Act) (s : State)
    (h : run (step pid) init as = some s) (hdirect : ∀ a ∈ as, ¬ a.EntersDirect) :
    ∃ done queued pending : List (Tid × Request),
      List.Forall₂ (fun bytes e => Written pid bytes e.2) s.socket done ∧
      queued.length = s.memory.send.outputQueue.length ∧
      pending.map Prod.fst = s.memory.pending.map Prod.fst ∧
      (done ++ queued).map Prod.fst = as.flatMap Act.entered ∧
      ∀ t, Mailbox.ofSender t (done ++ queued) ++ Mailbox.ofSender t pending =
        Mailbox.ofSender t (as.flatMap Act.requests) := by
  obtain ⟨b, ⟨bs, hbs, hcalled, hentered⟩, hsim⟩ := run_sim_mailbox h hdirect
  refine ⟨b.taken, b.queued, b.pending, hsim.taken, hsim.queued.length_eq.symm, hsim.senders.symm,
    ?_, fun t => ?_⟩
  · rw [← hentered]
    exact congrArg (List.map Prod.fst) (Mailbox.run_entered hbs)
  · rw [← hcalled]
    exact Mailbox.run_program hbs t

def rootId : JByteArray := ⟨[1, 2, 3, 4, 5, 6, 7, 8], by decide⟩
def noBytes : JByteArray := ⟨[], by decide⟩

/-- Two threads call, and the second one enters its critical section first; a third one is told that
its identifier is empty.  The socket has got one message when the first thread calls again. -/
def threeRequests : List Act :=
  [.call 1 (fun _ => 9) (.item .publishScope rootId noBytes 0 (some noBytes)),
    .call 2 (fun _ => 9) (.item .subscribeScope rootId noBytes 0 none),
    .call 3 (fun _ => 9) (.item .subscribeScope noBytes noBytes 0 none),
    .other (.enqueue 2 ⟨1, .none, 2, 3, none, []⟩), .other (.path (.select {.pipe} ∅)),
    .other (.enqueue 1 ⟨0, .none, 0, 1, none, []⟩), .other (.path .readPipe),
    .other (.path .receive), .other (.path (.send 28 none)),
    .call 1 (fun _ => 9) (.item .unpublishScope rootId noBytes 0 none)]

theorem written_in_order_three : ∃ s, run (step 1) init threeRequests = some s ∧
    s.memory.send.outputQueue.length = 1 ∧ s.memory.pending.map Prod.fst = [1] ∧
    List.Forall₂ (Written 1) s.socket [.item .subscribeScope ⟨rootId.bytes, [], 0, none⟩] := by
  obtain ⟨s, hs, hq, hp, hone⟩ : ∃ s, run (step 1) init threeRequests = some s ∧
      s.memory.send.outputQueue.length = 1 ∧ s.memory.pending.map Prod.fst = [1] ∧
      s.socket.length = 1 := ⟨_, rfl, rfl, rfl, rfl⟩
  have hdirect : ∀ a ∈ threeRequests, ¬ a.EntersDirect := by
    simp [threeRequests, Act.EntersDirect, PublishMemory.EntersDirect, Msg.direct]
  obtain ⟨done, queued, pending, hall, hlen, hpending, hentered, hprogram⟩ :=
    written_in_order 1 threeRequests s hs hdirect
  obtain ⟨⟨t, q⟩, rfl⟩ := List.length_eq_one_iff.mp (hall.length_eq.symm.trans hone)
  obtain ⟨⟨t', q'⟩, rfl⟩ := List.length_eq_one_iff.mp (hlen.trans hq)
  obtain ⟨⟨t'', q''⟩, rfl, _⟩ := List.map_eq_singleton_iff.mp (hpending.trans hp)
  -- the first thread is not the sender of the message that the socket got
  obtain ⟨rfl, ht'⟩ : t = 2 ∧ t' = 1 := by simpa [threeRequests, Act.entered] using hentered
  obtain rfl : t'' = 1 := by simpa [hp] using hpending
  subst ht'
  have h2 : [q] = [.item .subscribeScope ⟨rootId.bytes, [], 0, none⟩] := hprogram 2
  obtain rfl := (List.cons.inj h2).1
  obtain ⟨bytes, rest, hw, hnil, hsocket⟩ := List.forall₂_cons_right_iff.mp hall
  cases hnil
  exact ⟨s, hs, hq, hp, hsocket ▸ .cons hw .nil⟩

end Outbound
end Wrapper
end BA
