import BlackadderJNI.Lib.Gauge
import BlackadderJNI.Lib.Matching
import BlackadderJNI.Wrapper.Pipeline

/-!
# Several threads in `getNextEventDirect`

`BAWrapper.getNextEventDirect` is not synchronized, and `Blackadder::getEvent` reads the socket
twice: a peek for the size of the block it allocates, then the `recvmsg` into the block.  Between
the two, another thread may take the datagram that was measured.

* `State`, `step`      the receive queue of the socket, and the threads between the two `recvmsg`;
* `gauge`              the same as a queue whose takers first measure its head;
* `requiredSize`       how much of a datagram an event is made of;
* `tells_iff`          a call tells what was sent, out of the bytes it received, exactly when they
                       fit its block;
* `received_whole_iff`   so no event is cut exactly when no `recvmsg` takes a datagram that does
                       not fit, and then every message reaches one call, in order;
* `empty_stops`        a datagram without bytes ends all receiving.
-/

namespace BA
namespace Wrapper
namespace BlockingReceive
open Run Pipeline

variable {T : Type} [DecidableEq T]

/-- the values of an `int` that are not negative -/
abbrev Size := Fin (2 ^ 31)

/-- a datagram that the daemon sent; its length is an `int` -/
structure Datagram where
  bytes : Bytes
  length_lt : bytes.length < 2 ^ 31

def Datagram.size (d : Datagram) : Size := ⟨d.bytes.length, d.length_lt⟩

/-- a call of `getEvent` that has returned -/
structure Returned (T : Type) where
  thread : T
  reply : Reply
  /-- the size of its block, and the datagram that left the socket for it -/
  took : Option (Size × Datagram)

structure State (T : Type) where
  socket : List Datagram
  /-- `total_buf_size` of the calls between the two `recvmsg` -/
  totalBufSize : T → Option Size
  returned : List (Returned T)

def init : State T := ⟨[], fun _ => none, []⟩

/-- nothing was received: what the first `recvmsg` reports is not positive -/
def nothing (total : Int) (h : total < 2 ^ 31) : Reply := ⟨total, h, none, nofun, fun _ => 0⟩

/-- the second `recvmsg` stores what fits the block, and drops the rest of the datagram -/
def received (size : Size) (d : Datagram) (beyond : Nat → UInt8) : Reply where
  totalBufSize := size.val
  totalBufSize_lt := by have := size.isLt; omega
  recv := some (d.bytes.take size.val)
  length_le := by
    intro bytes hb
    cases hb
    rw [List.length_take]
    omega
  beyond := beyond

/-- the second `recvmsg` returns -1 -/
def failed (size : Size) : Reply :=
  ⟨size.val, by have := size.isLt; omega, none, nofun, fun _ => 0⟩

inductive Act (T : Type) where
  | arrive (d : Datagram)
  /-- the peek reports the size of the first datagram -/
  | peek (t : T)
  /-- the same for a datagram without bytes -/
  | peekEmpty (t : T)
  | peekFails (t : T)
  /-- `beyond` is what the block holds behind the bytes received -/
  | recv (t : T) (beyond : Nat → UInt8)
  | recvFails (t : T)

/-- both `recvmsg` wait while the queue is empty -/
def step (s : State T) : Act T → Option (State T)
  | .arrive d => some { s with socket := s.socket ++ [d] }
  | .peek t =>
    match s.totalBufSize t, s.socket with
    | none, d :: _ =>
      if 0 < d.bytes.length then
        some { s with totalBufSize := Function.update s.totalBufSize t (some d.size) }
      else none
    | _, _ => none
  | .peekEmpty t =>
    match s.totalBufSize t, s.socket with
    | none, d :: _ =>
      if 0 < d.bytes.length then none
      else some { s with returned := s.returned ++ [⟨t, nothing 0 (by norm_num), none⟩] }
    | _, _ => none
  | .peekFails t =>
    match s.totalBufSize t with
    | none => some { s with returned := s.returned ++ [⟨t, nothing (-1) (by norm_num), none⟩] }
    | some _ => none
  | .recv t beyond =>
    match s.totalBufSize t, s.socket with
    | some size, d :: rest =>
      some ⟨rest, Function.update s.totalBufSize t none,
        s.returned ++ [⟨t, received size d beyond, some (size, d)⟩]⟩
    | _, _ => none
  | .recvFails t =>
    match s.totalBufSize t with
    | some size => some { s with
        totalBufSize := Function.update s.totalBufSize t none
        returned := s.returned ++ [⟨t, failed size, none⟩] }
    | none => none

/-- what the daemon sends -/
def Act.arrived : Act T → List Datagram
  | .arrive d => [d]
  | _ => []

/-! ## as a queue with takers that measure -/

/-- the calls that took a datagram -/
def State.taken (s : State T) : List (Size × Datagram) := s.returned.filterMap Returned.took

def gauge (s : State T) : Gauge T Datagram Size := ⟨s.socket, s.totalBufSize, s.taken⟩

def Act.gauge : Act T → Gauge.Act T Datagram
  | .arrive d => .put d
  | .peek t => .note t
  | .peekEmpty _ => .other
  | .peekFails _ => .other
  | .recv t _ => .take t
  | .recvFails t => .drop t

/-- what a step can do -/
inductive Effect (s s' : State T) : Act T → Prop
  | arrive (d : Datagram) (eq : s' = { s with socket := s.socket ++ [d] }) :
      Effect s s' (.arrive d)
  | peek (t : T) (d : Datagram) (rest : List Datagram) (free : s.totalBufSize t = none)
      (socket : s.socket = d :: rest) (pos : 0 < d.bytes.length)
      (eq : s' = { s with totalBufSize := Function.update s.totalBufSize t (some d.size) }) :
      Effect s s' (.peek t)
  | none (a : Act T) (r : Returned T) (took : r.took = none) (gauge : a.gauge = .other)
      (unread : r.reply.totalBufSize ≤ 0)
      (eq : s' = { s with returned := s.returned ++ [r] }) : Effect s s' a
  | recv (t : T) (beyond : Nat → UInt8) (size : Size) (d : Datagram) (rest : List Datagram)
      (sized : s.totalBufSize t = some size) (socket : s.socket = d :: rest)
      (eq : s' = ⟨rest, Function.update s.totalBufSize t none,
        s.returned ++ [⟨t, received size d beyond, some (size, d)⟩]⟩) : Effect s s' (.recv t beyond)
  | recvFails (t : T) (size : Size) (sized : s.totalBufSize t = some size)
      (eq : s' = { s with
        totalBufSize := Function.update s.totalBufSize t none
        returned := s.returned ++ [⟨t, failed size, none⟩] }) : Effect s s' (.recvFails t)

theorem step_effect {s s' : State T} {a : Act T} (h : step s a = some s') : Effect s s' a := by
  cases a with
  | arrive d => exact .arrive d (Option.some.inj h).symm
  | peek t =>
    dsimp only [step] at h
    split at h
    · next d rest hfree hsocket =>
      split at h
      · next hpos => exact .peek t d rest hfree hsocket hpos (Option.some.inj h).symm
      · cases h
    · cases h
  | peekEmpty t =>
    dsimp only [step] at h
    split at h
    · split at h
      · cases h
      · exact .none _ _ rfl rfl le_rfl (Option.some.inj h).symm
    · cases h
  | peekFails t =>
    dsimp only [step] at h
    split at h
    · exact .none _ _ rfl rfl (Int.neg_nonpos_of_nonneg zero_le_one) (Option.some.inj h).symm
    · cases h
  | recv t beyond =>
    dsimp only [step] at h
    split at h
    · next size d rest hsized hsocket =>
      exact .recv t beyond size d rest hsized hsocket (Option.some.inj h).symm
    · cases h
  | recvFails t =>
    dsimp only [step] at h
    split at h
    · next size hsized => exact .recvFails t size hsized (Option.some.inj h).symm
    · cases h

omit [DecidableEq T] in
theorem taken_snoc (returned : List (Returned T)) (r : Returned T) :
    (returned ++ [r]).filterMap Returned.took =
      returned.filterMap Returned.took ++ r.took.toList := by
  rw [List.filterMap_append]
  cases h : r.took <;> simp [h]

theorem gauge_step {s s' : State T} {a : Act T} (h : step s a = some s') :
    Gauge.step Datagram.size (gauge s) a.gauge = some (gauge s') := by
  refine Gauge.Effect.step ?_
  cases step_effect h with
  | arrive d eq => exact .put d (eq ▸ rfl)
  | peek t d rest free socket _ eq => exact .note t d rest free socket (eq ▸ rfl)
  | none a r took hgauge _ eq =>
    rw [hgauge]
    refine .other ?_
    rw [eq]
    simp only [gauge, State.taken, taken_snoc, took, Option.toList_none, List.append_nil]
  | recv t beyond size d rest sized socket eq =>
    refine .take t size d rest sized socket ?_
    rw [eq]
    simp only [gauge, State.taken, taken_snoc, Option.toList_some]
  | recvFails t size sized eq =>
    refine .drop t size sized ?_
    rw [eq]
    simp only [gauge, State.taken, taken_snoc, Option.toList_none, List.append_nil]

/-! ## how much of a datagram an event is made of -/

/-- the bytes that the decoder looks at: all of published data, else the part up to the end of
the identifier -/
def requiredSize (bytes : Bytes) : Nat :=
  if bytes.getD sizeofNlmsghdr 0 = publishedDataCode then bytes.length
  else idOffset + (bytes.getD (sizeofNlmsghdr + 1) 0).toNat * pursuitIdLen

theorem getD_append_length {α : Type} (pre post : List α) (x d : α) :
    (pre ++ x :: post).getD pre.length d = x := by
  rw [List.getD_append_right _ _ _ _ le_rfl, Nat.sub_self]
  rfl

theorem datagram_type {header id payload : Bytes} {type count : UInt8}
    (h : header.length = sizeofNlmsghdr) :
    (datagram header type count id payload).getD sizeofNlmsghdr 0 = type := by
  rw [← h]
  exact getD_append_length header _ _ _

theorem datagram_count {header id payload : Bytes} {type count : UInt8}
    (h : header.length = sizeofNlmsghdr) :
    (datagram header type count id payload).getD (sizeofNlmsghdr + 1) 0 = count := by
  have hsplit : datagram header type count id payload =
      (header ++ [type]) ++ count :: (id ++ payload) := by simp [datagram]
  have hlen : (header ++ [type]).length = sizeofNlmsghdr + 1 := by
    rw [List.length_append, h]
    rfl
  rw [hsplit, ← hlen]
  exact getD_append_length _ _ _ _

theorem requiredSize_sent (m : Sent) : requiredSize m.bytes =
    if m.type = .publishedData then m.bytes.length else idOffset + m.id.length := by
  have hcode : m.type.code = publishedDataCode ↔ m.type = .publishedData := by
    refine ⟨fun h => ?_, fun h => by rw [h]; rfl⟩
    by_contra hne
    exact code_ne hne h
  have htype : m.bytes.getD sizeofNlmsghdr 0 = m.type.code := datagram_type m.header_length
  have hcount : m.bytes.getD (sizeofNlmsghdr + 1) 0 = m.count := datagram_count m.header_length
  unfold requiredSize
  rw [htype, hcount, if_congr hcode rfl rfl, m.id_length]

/-- the event that a call returns tells what was sent, out of the bytes that were received -/
structure Tells (viewsNull : Bool) (r : Reply) (m : Sent) : Prop where
  carries : ∀ eventPtr, ∃ e, BAWrapper.getNextEventDirect viewsNull r eventPtr = .ok e ∧
    Carries e m.type m.id m.payload
  inRange : (Blackadder.getEvent Event.new r).InRange r.bytesRead.toNat

/-- what a block keeps of a datagram, if it keeps the identifier -/
theorem take_datagram (m : Sent) {n : Nat} (h : idOffset + m.id.length ≤ n) :
    m.bytes.take n = datagram m.header m.type.code m.count m.id
      (m.payload.take (n - (idOffset + m.id.length))) := by
  have hsplit : ∀ payload, datagram m.header m.type.code m.count m.id payload =
      (m.header ++ [m.type.code, m.count] ++ m.id) ++ payload := fun payload => by simp [datagram]
  have hlen : (m.header ++ [m.type.code, m.count] ++ m.id).length = idOffset + m.id.length := by
    simp only [List.length_append, m.header_length]
    rfl
  rw [Sent.bytes, hsplit, hsplit, List.take_append, hlen, List.take_of_length_le (hlen ▸ h)]

theorem length_sent (m : Sent) :
    m.bytes.length = idOffset + m.id.length + m.payload.length := by
  simp only [Sent.bytes, datagram, List.length_append, List.length_cons, m.header_length, idOffset]
  omega

/-- the bytes behind the identifier do not matter unless they are published -/
theorem carries_payload {e : BAEvent} {ty : BAEventType} {id payload payload' : Bytes}
    (h : Carries e ty id payload) (hp : ty = .publishedData → payload = payload') :
    Carries e ty id payload' :=
  ⟨h.type, h.id, fun ht => hp ht ▸ h.published ht, h.other⟩

theorem getNextEventDirect_id (viewsNull : Bool) (r : Reply) {eventPtr : Addr} {e : BAEvent}
    (h : BAWrapper.getNextEventDirect viewsNull r eventPtr = .ok e) :
    e.getId = .ok (Blackadder.getEvent Event.new r).id := by
  unfold BAWrapper.getNextEventDirect BAWrapper.cNextEventDirect at h
  dsimp only at h
  rw [idArray_eq] at h
  cases hb : dataBuffer viewsNull (Blackadder.getEvent Event.new r) with
  | none =>
    rw [hb] at h
    cases h
    rfl
  | some b =>
    rw [hb] at h
    cases h
    rfl

/-- a call whose block keeps the identifier -/
theorem kept_carries (viewsNull : Bool) (m : Sent) {r : Reply} {n : Nat}
    (hn : idOffset + m.id.length ≤ n) (h : r.recv = some (m.bytes.take n)) (eventPtr : Addr) :
    ∃ e, BAWrapper.getNextEventDirect viewsNull r eventPtr = .ok e ∧
      Carries e m.type m.id (m.payload.take (n - (idOffset + m.id.length))) := by
  rw [take_datagram m hn] at h
  exact (event_roundTrip viewsNull eventPtr r m.type m.count m.header m.id _ m.header_length
    m.id_length h).1

theorem received_recv (size : Size) (d : Datagram) (beyond : Nat → UInt8) :
    (received size d beyond).recv = some (d.bytes.take size.val) := rfl

theorem received_inRange (m : Sent) {d : Datagram} (hd : d.bytes = m.bytes) {size : Size}
    (beyond : Nat → UInt8) (h : idOffset + m.id.length ≤ size.val) :
    (Blackadder.getEvent Event.new (received size d beyond)).InRange
      (received size d beyond).bytesRead.toNat := by
  have hrecv : (received size d beyond).recv = some (m.bytes.take size.val) := by
    rw [received_recv, hd]
  have hlen : (m.bytes.take size.val).length = idOffset + m.id.length +
      (m.payload.take (size.val - (idOffset + m.id.length))).length := by
    rw [List.length_take, List.length_take, length_sent]
    omega
  have hpos : 0 < (m.bytes.take size.val).length := by
    have hoff : idOffset = 18 := rfl
    omega
  rw [(events_of_received Event.new hrecv hpos).1]
  have hread : (received size d beyond).bytesRead.toNat = (m.bytes.take size.val).length := by
    unfold Reply.bytesRead
    rw [hrecv]
    exact Int.toNat_natCast _
  rw [hread]
  refine decode_inRange hrecv fun hshort => ?_
  have hcount : (m.bytes.take size.val).getD (sizeofNlmsghdr + 1) 0 = m.count := by
    rw [take_datagram m h]
    exact datagram_count m.header_length
  unfold TooShort at hshort
  rw [hcount, hlen, ← m.id_length] at hshort
  omega

/-- **A call tells what was sent exactly when the message fits its block.** -/
theorem tells_iff (viewsNull : Bool) (m : Sent) (d : Datagram) (hd : d.bytes = m.bytes)
    (size : Size) (beyond : Nat → UInt8) :
    Tells viewsNull (received size d beyond) m ↔ requiredSize m.bytes ≤ size.val := by
  have hrecv : (received size d beyond).recv = some (m.bytes.take size.val) := by
    rw [received_recv, hd]
  rw [requiredSize_sent]
  constructor
  · intro h
    obtain ⟨e, he, hc⟩ := h.carries 0
    have hid : (Blackadder.getEvent Event.new (received size d beyond)).id = m.id :=
      Except.ok.inj ((getNextEventDirect_id viewsNull _ he).symm.trans hc.id)
    have hkeep : idOffset + m.id.length ≤ size.val := by
      have hin := h.inRange.id
      rw [hid] at hin
      unfold Reply.bytesRead at hin
      rw [hrecv, Int.toNat_natCast, List.length_take] at hin
      omega
    split
    · next hty =>
      obtain ⟨e', he', hc'⟩ := kept_carries viewsNull m hkeep hrecv 0
      cases he.symm.trans he'
      have hlen := Except.ok.inj ((hc.published hty).1.symm.trans (hc'.published hty).1)
      rw [List.length_take] at hlen
      rw [length_sent]
      omega
    · exact hkeep
  · intro hle
    have hkeep : idOffset + m.id.length ≤ size.val := by
      split at hle
      · rw [length_sent] at hle
        omega
      · exact hle
    refine ⟨fun eventPtr => ?_, received_inRange m hd beyond hkeep⟩
    obtain ⟨e, he, hc⟩ := kept_carries viewsNull m hkeep hrecv eventPtr
    refine ⟨e, he, carries_payload hc fun hty => ?_⟩
    rw [if_pos hty, length_sent] at hle
    exact List.take_of_length_le (by omega)

/-! ## runs -/

/-- a call begins only while no other stands between its two `recvmsg` -/
def Alone (s : State T) : Act T → Prop
  | .peek _ => ∀ u, s.totalBufSize u = none
  | _ => True

/-- what a step takes from the socket, and the size of the block for it -/
def taking (s : State T) : Act T → List (Size × Datagram)
  | .recv t _ =>
    match s.totalBufSize t, s.socket with
    | some size, d :: _ => [(size, d)]
    | _, _ => []
  | _ => []

/-- the datagram that a `recvmsg` takes fits the block of the call -/
def Fits (s : State T) (a : Act T) : Prop :=
  ∀ x ∈ taking s a, requiredSize x.2.bytes ≤ x.1.val

instance (s : State T) (a : Act T) : Decidable (Fits s a) :=
  inferInstanceAs (Decidable (∀ x ∈ taking s a, _))

theorem taken_step {s s' : State T} {a : Act T} (h : step s a = some s') :
    s'.taken = s.taken ++ taking s a := by
  cases step_effect h with
  | arrive d eq =>
    rw [eq]
    exact (List.append_nil _).symm
  | peek t d rest _ _ _ eq =>
    rw [eq]
    exact (List.append_nil _).symm
  | none a r took hgauge _ eq =>
    have hno : taking s a = [] := by
      cases a with
      | recv t beyond => cases hgauge
      | _ => rfl
    rw [eq, hno]
    simp only [State.taken, taken_snoc, took, Option.toList_none]
  | recv t beyond size d rest sized socket eq =>
    rw [eq]
    simp only [State.taken, taken_snoc, taking, sized, socket, Option.toList_some]
  | recvFails t size sized eq =>
    rw [eq]
    simp only [State.taken, taken_snoc, Option.toList_none]
    rfl

theorem fits_iff {as : List (Act T)} {s : State T} (h : run step init as = some s) :
    (∀ x ∈ s.taken, requiredSize x.2.bytes ≤ x.1.val) ↔ Along step Fits init as :=
  all_iff_along (fun _ _ _ ha => taken_step ha) nofun h

theorem run_gauge {as : List (Act T)} {s : State T} (h : run step init as = some s) :
    run (Gauge.step Datagram.size) Gauge.empty (as.map Act.gauge) = some (gauge s) :=
  run_map gauge Act.gauge (fun _ _ _ ha => gauge_step ha) h

/-- **What arrived was taken or is in the socket**, in order. -/
theorem run_arrived {as : List (Act T)} {s : State T} (h : run step init as = some s) :
    as.flatMap Act.arrived = s.taken.map Prod.snd ++ s.socket := by
  have hc := Gauge.run_content (run_gauge h)
  rw [List.flatMap_map] at hc
  rw [← show (gauge s).content = s.taken.map Prod.snd ++ s.socket from rfl, hc]
  congr 1
  funext a
  cases a <;> rfl

/-- a call that took a datagram received the part that fits its block -/
def Genuine (r : Returned T) : Prop :=
  ∀ x ∈ r.took, ∃ beyond, r.reply = received x.1 x.2 beyond

theorem genuine_step {s s' : State T} {a : Act T} (hs : ∀ r ∈ s.returned, Genuine r)
    (h : step s a = some s') : ∀ r ∈ s'.returned, Genuine r := by
  have add : ∀ r : Returned T, Genuine r → ∀ r' ∈ s.returned ++ [r], Genuine r' := by
    intro r hr r' hr'
    rcases List.mem_append.mp hr' with hr' | hr'
    · exact hs r' hr'
    · exact List.mem_singleton.mp hr' ▸ hr
  cases step_effect h with
  | arrive d eq => exact eq ▸ hs
  | peek t d rest _ _ _ eq => exact eq ▸ hs
  | none a r took _ _ eq =>
    rw [eq]
    exact add r fun x hx => absurd (took.symm.trans hx) nofun
  | recv t beyond size d rest _ _ eq =>
    rw [eq]
    refine add _ fun x hx => ?_
    cases hx
    exact ⟨beyond, rfl⟩
  | recvFails t size _ eq =>
    rw [eq]
    exact add _ nofun

/-- the calls that took a datagram -/
def State.receptions (s : State T) : List (Returned T) :=
  s.returned.filter fun r => r.took.isSome

/-- each of them, with what it took -/
theorem receptions_taken {as : List (Act T)} {s : State T} (h : run step init as = some s) :
    List.Forall₂ (fun r x => ∃ beyond, r.reply = received x.1 x.2 beyond)
      s.receptions s.taken := by
  have hgen : ∀ r ∈ s.returned, Genuine r :=
    run_inv (I := fun t : State T => ∀ r ∈ t.returned, Genuine r)
      (fun _ _ _ hs ha => genuine_step hs ha) (List.forall_mem_nil _) h
  have hreal : ∀ r ∈ s.receptions, Genuine r := fun r hr => hgen r (List.mem_of_mem_filter hr)
  exact ((List.forall₂_and_left _ _).mpr ⟨hreal, Matching.filterMap_filter s.returned⟩).imp
    fun r x hrx => hrx.1 x hrx.2

/-- the datagrams that arrive are those of the messages -/
def Arrive (d : Datagram) (m : Sent) : Prop := d.bytes = m.bytes

/-- **Calls one after the other fit**: what a call measured is what it takes. -/
theorem fits_of_alone {as : List (Act T)} {s : State T} (h : run step init as = some s)
    {msgs : List Sent} (hsent : List.Forall₂ Arrive (as.flatMap Act.arrived) msgs)
    (halone : Along step Alone init as) : Along step Fits init as := by
  have hexact : ∀ x ∈ (gauge s).taken, x.1 = Datagram.size x.2 := by
    refine Gauge.run_exact (along_map gauge Act.gauge (fun _ _ _ ha => gauge_step ha) ?_ halone h)
      (run_gauge h)
    intro t a ha
    cases a with
    | peek u => exact ha
    | _ => trivial
  refine (fits_iff h).mp fun x hx => ?_
  have hin : x.2 ∈ as.flatMap Act.arrived := by
    rw [run_arrived h]
    exact List.mem_append_left _ (List.mem_map_of_mem hx)
  obtain ⟨m, _, hm⟩ := Matching.exists_of_mem hsent hin
  rw [hexact x hx]
  show requiredSize x.2.bytes ≤ x.2.bytes.length
  rw [show x.2.bytes = m.bytes from hm, requiredSize_sent]
  split
  · exact le_rfl
  · rw [length_sent]
    omega

/-- what a call received of a message: as much as fits the block -/
def Cut (r : Returned T) (m : Sent) : Prop :=
  r.reply.recv = some (m.bytes.take r.reply.totalBufSize.toNat)

/-- **When nothing is cut.**  In every interleaving of the two `recvmsg` of any number of calls,
each message is taken by one call, in the order sent, and each block has the size of the message
it receives or of one before it.  All calls tell what was sent exactly when no `recvmsg` takes a
message that does not fit, and calls one after the other always do. -/
theorem received_whole_iff (viewsNull : Bool) (as : List (Act T)) (s : State T)
    (h : run step init as = some s) (msgs : List Sent)
    (hsent : List.Forall₂ Arrive (as.flatMap Act.arrived) msgs) :
    ∃ done rest, msgs = done ++ rest ∧ List.Forall₂ Arrive s.socket rest ∧
      List.Forall₂ Cut s.receptions done ∧
      (∀ pre x post, s.taken = pre ++ x :: post →
        ∃ d ∈ pre.map Prod.snd ++ [x.2], x.1 = d.size) ∧
      (List.Forall₂ (fun r m => Tells viewsNull r.reply m) s.receptions done ↔
        Along step Fits init as) ∧
      (Along step Alone init as → Along step Fits init as) := by
  have hsent₀ := hsent
  rw [run_arrived h] at hsent
  obtain ⟨done, rest, hmsgs, hdone, hrest⟩ := Matching.split hsent
  rw [List.forall₂_map_left_iff] at hdone
  have hcalls := receptions_taken h
  refine ⟨done, rest, hmsgs, hrest, ?_, (Gauge.run_noted (run_gauge h)).taken, ?_,
    fits_of_alone h hsent₀⟩
  · refine Matching.comp (fun r x m hr hm => ?_) hcalls hdone
    obtain ⟨beyond, hreply⟩ := hr
    rw [Cut, hreply, received_recv, show x.2.bytes = m.bytes from hm]
    rfl
  · rw [← fits_iff h]
    refine Matching.comp_iff (fun r x m hr hm => ?_) hcalls hdone
    obtain ⟨beyond, hreply⟩ := hr
    rw [hreply, tells_iff viewsNull m x.2 hm x.1 beyond, show x.2.bytes = m.bytes from hm]

def Datagram.ofSent (m : Sent) (h : m.bytes.length < 2 ^ 31) : Datagram := ⟨m.bytes, h⟩

/-- two calls measure the short message, and the second takes the long one -/
def overtaken : List (Act Nat) :=
  [.arrive (.ofSent stopSent (by norm_num [Sent.bytes, datagram, stopSent])),
    .arrive (.ofSent newDataSent (by norm_num [Sent.bytes, datagram, newDataSent, newDataId])),
    .peek 0, .peek 1, .recv 0 (fun _ => 0), .recv 1 (fun _ => 0)]

theorem received_whole_iff_overtaken :
    ∃ s, run step init overtaken = some s ∧
      ¬ List.Forall₂ (fun r m => Tells true r.reply m) s.receptions [stopSent, newDataSent] := by
  obtain ⟨s, hrun, hsocket⟩ : ∃ s, run step init overtaken = some s ∧ s.socket = [] :=
    ⟨_, rfl, rfl⟩
  obtain ⟨done, rest, hmsgs, hrest, _, _, hiff, _⟩ := received_whole_iff true overtaken s hrun
    [stopSent, newDataSent] (.cons rfl (.cons rfl .nil))
  rw [hsocket, List.forall₂_nil_left_iff] at hrest
  rw [hrest, List.append_nil] at hmsgs
  refine ⟨s, hrun, fun hall => ?_⟩
  rw [hmsgs, hiff] at hall
  exact absurd hall (by decide)

/-! ## a datagram without bytes -/

/-- no call is between its two `recvmsg`, and the first datagram has no bytes -/
structure Stuck (s : State T) : Prop where
  idle : ∀ t, s.totalBufSize t = none
  empty : ∃ d rest, s.socket = d :: rest ∧ d.bytes = []

/-- a call that returned without a datagram, and tells no type -/
def Undefined (viewsNull : Bool) (r : Returned T) : Prop :=
  r.took = none ∧ ∀ eventPtr, ∃ e,
    BAWrapper.getNextEventDirect viewsNull r.reply eventPtr = .ok e ∧ e.getType = none

omit [DecidableEq T] in
theorem undefined_of_unread (viewsNull : Bool) {r : Returned T} (took : r.took = none)
    (unread : r.reply.totalBufSize ≤ 0) : Undefined viewsNull r := by
  refine ⟨took, fun eventPtr => ?_⟩
  unfold BAWrapper.getNextEventDirect BAWrapper.cNextEventDirect
  rw [getEvent_empty Event.new (not_lt.mpr unread)]
  cases viewsNull <;> exact ⟨_, rfl, rfl⟩

theorem stuck_step (viewsNull : Bool) {s s' : State T} {a : Act T} (hs : Stuck s)
    (h : step s a = some s') : Stuck s' ∧ s'.socket = s.socket ++ a.arrived ∧
      ∃ more, s'.returned = s.returned ++ more ∧ ∀ r ∈ more, Undefined viewsNull r := by
  obtain ⟨d, rest, hsocket, hempty⟩ := hs.empty
  cases step_effect h with
  | arrive d' eq =>
    rw [eq]
    refine ⟨⟨hs.idle, d, rest ++ [d'], ?_, hempty⟩, rfl, [], (List.append_nil _).symm,
      List.forall_mem_nil _⟩
    show s.socket ++ [d'] = _
    rw [hsocket]
    rfl
  | peek t d' rest' _ socket pos _ =>
    cases hsocket.symm.trans socket
    rw [hempty] at pos
    cases pos
  | none a r took hgauge unread eq =>
    rw [eq]
    refine ⟨⟨hs.idle, hs.empty⟩, ?_, [r], rfl, fun r' hr' => ?_⟩
    · cases a with
      | arrive d => cases hgauge
      | _ => exact (List.append_nil _).symm
    · exact List.mem_singleton.mp hr' ▸ undefined_of_unread viewsNull took unread
  | recv t beyond size d' rest' sized _ _ => exact absurd ((hs.idle t).symm.trans sized) nofun
  | recvFails t size sized _ => exact absurd ((hs.idle t).symm.trans sized) nofun

/-- **A datagram without bytes is never taken**: every call that returns from then on returns an
event without a type, and everything that arrives stays in the socket. -/
theorem empty_stops (viewsNull : Bool) (s s' : State T) (as : List (Act T)) (hs : Stuck s)
    (h : run step s as = some s') : s'.socket = s.socket ++ as.flatMap Act.arrived ∧
      ∃ more, s'.returned = s.returned ++ more ∧ ∀ r ∈ more, Undefined viewsNull r := by
  refine (run_hist (I := fun t done => Stuck t ∧ t.socket = s.socket ++ done.flatMap Act.arrived ∧
      ∃ more, t.returned = s.returned ++ more ∧ ∀ r ∈ more, Undefined viewsNull r)
    ⟨hs, (List.append_nil _).symm, [], (List.append_nil _).symm, List.forall_mem_nil _⟩
    (fun t done a u ht ha => ?_) h).2
  obtain ⟨hstuck, hsocket, more, hmore, hall⟩ := ht
  obtain ⟨hstuck', hsocket', more', hmore', hall'⟩ := stuck_step viewsNull hstuck ha
  refine ⟨hstuck', ?_, more ++ more', ?_, fun r hr => ?_⟩
  · rw [hsocket', hsocket, List.flatMap_append, List.flatMap_singleton, List.append_assoc]
  · rw [hmore', hmore, List.append_assoc]
  · exact (List.mem_append.mp hr).elim (hall r) (hall' r)

/-- the daemon sent a datagram without bytes -/
def emptyFirst : State Nat := ⟨[⟨[], by norm_num⟩], fun _ => none, []⟩

def twoCalls : List (Act Nat) :=
  [.peekEmpty 0, .arrive (.ofSent stopSent (by norm_num [Sent.bytes, datagram, stopSent])),
    .peekEmpty 1]

theorem empty_stops_two :
    ∃ s', run step emptyFirst twoCalls = some s' ∧ s'.returned.length = 2 ∧
      ∀ r ∈ s'.returned, Undefined true r := by
  obtain ⟨s', hrun, hlen⟩ : ∃ s', run step emptyFirst twoCalls = some s' ∧
      s'.returned.length = 2 := ⟨_, rfl, rfl⟩
  obtain ⟨_, more, hmore, hall⟩ := empty_stops true emptyFirst s' twoCalls
    ⟨fun _ => rfl, _, _, rfl, rfl⟩ hrun
  refine ⟨s', hrun, hlen, fun r hr => hall r ?_⟩
  rw [hmore] at hr
  exact hr

end BlockingReceive
end Wrapper
end BA
