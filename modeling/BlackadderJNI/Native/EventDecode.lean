import BlackadderJNI.Native.Request
import Mathlib.Data.List.GetD

/-!
# Received events

Translation of `Blackadder::getEvent` (`blackadder.cpp`) and of the part of
`NB_Blackadder::selector` (`nb_blackadder.cpp`) that makes an event of a datagram.

* `Reply`                what the socket answers to the peek and to `recvmsg`;
* `Event`, `Event.decode`   a native event, and the assignments to it, the same in both libraries;
* `Blackadder.getEvent`, `NBBlackadder.selectorEvent`   with their different checks;
* `decode_datagram`      the decoder undoes the layout header, type, count, identifier, payload;
* `inRange_iff`          an event lies inside the received bytes exactly when the datagram is long
                         enough for its own count byte, or the event is undefined;
* `pathsAgree_iff`       the two libraries agree except where `recvmsg` fails after the peek.
-/

namespace BA

/-- what the socket answers: the size that the peek reports, an `int`, and what `recvmsg` then
stores into a block of this size, `none` when it returns -1 -/
structure Reply where
  totalBufSize : Int
  totalBufSize_lt : totalBufSize < 2 ^ 31
  recv : Option Bytes
  length_le : ∀ bytes ∈ recv, (bytes.length : Int) ≤ totalBufSize
  /-- the memory that `recvmsg` does not write, by the offset from the block -/
  beyond : Nat → UInt8

def Reply.bytesRead (r : Reply) : Int :=
  match r.recv with
  | none => -1
  | some bytes => bytes.length

/-- the memory from `iov_base` on, after `recvmsg` -/
def Reply.memory (r : Reply) (o : Nat) : UInt8 := (r.recv.getD []).getD o (r.beyond o)

/-- a native `Event`; `dataLen` is an `unsigned int` -/
structure Event where
  type : UInt8
  id : Bytes
  /-- the offset of `data` from `buffer`, `none` for NULL -/
  data : Option Nat
  dataLen : Nat
  /-- the memory from `buffer` on, `none` for NULL -/
  buffer : Option (Nat → UInt8)

def undefEvent : UInt8 := 0
def publishedDataCode : UInt8 := 104

def Event.new : Event := ⟨0, [], none, 0, none⟩

/-- a `char` stored into an `unsigned char` -/
def ofChar (c : Int8) : UInt8 := c.toUInt8

/-- `sizeof (struct nlmsghdr) + sizeof (unsigned char) + sizeof (unsigned char)` -/
def idOffset : Nat := sizeofNlmsghdr + 1 + 1

/-- the assignments to the event; `data_len` is computed as a `size_t` and cut to 32 bits -/
def Event.decode (buffer : Nat → UInt8) (bytesRead : Int) : Event :=
  let type := ofChar (buffer sizeofNlmsghdr).toInt8
  let idLen := ofChar (buffer (sizeofNlmsghdr + 1)).toInt8
  let id := (List.range (idLen.toNat * pursuitIdLen)).map fun i => buffer (idOffset + i)
  if type = publishedDataCode then
    let data := idOffset + idLen.toNat * pursuitIdLen
    ⟨type, id, some data, ((bytesRead - data) % 2 ^ 32).toNat, some buffer⟩
  else ⟨type, id, none, 0, some buffer⟩

def Blackadder.getEvent (ev : Event) (r : Reply) : Event :=
  if 0 < r.totalBufSize then
    if r.bytesRead < 0 then { ev with type := undefEvent }
    else Event.decode r.memory r.bytesRead
  else { ev with type := undefEvent }

/-- the event that the selector pushes, without a check of `bytes_read` -/
def NBBlackadder.selectorEvent (r : Reply) : Option Event :=
  if 0 < r.totalBufSize then some (Event.decode r.memory r.bytesRead) else none

/-! ## what is decoded -/

/-- the number of identifier bytes that the count byte claims -/
def claimedIdLen (buffer : Nat → UInt8) : Nat :=
  (buffer (sizeofNlmsghdr + 1)).toNat * pursuitIdLen

/-- the bytes at an offset -/
def bytesAt (buffer : Nat → UInt8) (o n : Nat) : Bytes :=
  (List.range n).map fun i => buffer (o + i)

theorem length_bytesAt (buffer : Nat → UInt8) (o n : Nat) : (bytesAt buffer o n).length = n := by
  rw [bytesAt, List.length_map, List.length_range]

theorem getElem_bytesAt (buffer : Nat → UInt8) (o n : Nat) {i : Nat}
    (hi : i < (bytesAt buffer o n).length) : (bytesAt buffer o n)[i] = buffer (o + i) := by
  simp [bytesAt]

theorem decode_eq (buffer : Nat → UInt8) (n : Int) :
    Event.decode buffer n =
      if buffer sizeofNlmsghdr = publishedDataCode then
        ⟨buffer sizeofNlmsghdr, bytesAt buffer idOffset (claimedIdLen buffer),
          some (idOffset + claimedIdLen buffer),
          ((n - (idOffset + claimedIdLen buffer : Nat)) % 2 ^ 32).toNat, some buffer⟩
      else
        ⟨buffer sizeofNlmsghdr, bytesAt buffer idOffset (claimedIdLen buffer), none, 0,
          some buffer⟩ := rfl

theorem decode_type (buffer : Nat → UInt8) (n : Int) :
    (Event.decode buffer n).type = buffer sizeofNlmsghdr := by
  rw [decode_eq]
  split <;> rfl

theorem decode_id (buffer : Nat → UInt8) (n : Int) :
    (Event.decode buffer n).id = bytesAt buffer idOffset (claimedIdLen buffer) := by
  rw [decode_eq]
  split <;> rfl

theorem length_decode_id (buffer : Nat → UInt8) (n : Int) :
    (Event.decode buffer n).id.length = claimedIdLen buffer := by
  rw [decode_id, length_bytesAt]

theorem decode_published {buffer : Nat → UInt8} (n : Int)
    (h : buffer sizeofNlmsghdr = publishedDataCode) :
    (Event.decode buffer n).data = some (idOffset + claimedIdLen buffer) ∧
    (Event.decode buffer n).dataLen =
      ((n - (idOffset + claimedIdLen buffer : Nat)) % 2 ^ 32).toNat := by
  rw [decode_eq, if_pos h]
  exact ⟨rfl, rfl⟩

theorem decode_other {buffer : Nat → UInt8} (n : Int)
    (h : buffer sizeofNlmsghdr ≠ publishedDataCode) :
    (Event.decode buffer n).data = none ∧ (Event.decode buffer n).dataLen = 0 := by
  rw [decode_eq, if_neg h]
  exact ⟨rfl, rfl⟩

/-- the two libraries make the same event of every datagram that arrives -/
theorem events_of_received (ev : Event) {r : Reply} {bytes : Bytes} (h : r.recv = some bytes)
    (hpos : 0 < bytes.length) :
    Blackadder.getEvent ev r = Event.decode r.memory bytes.length ∧
    NBBlackadder.selectorEvent r = some (Event.decode r.memory bytes.length) := by
  have htotal : 0 < r.totalBufSize := by
    have hle := r.length_le bytes h
    omega
  have hread : r.bytesRead = bytes.length := by
    unfold Reply.bytesRead
    rw [h]
  unfold Blackadder.getEvent NBBlackadder.selectorEvent
  rw [if_pos htotal, if_pos htotal, hread, if_neg (by omega)]
  exact ⟨rfl, rfl⟩

/-! ## the round trip -/

theorem memory_append {r : Reply} {pre bytes : Bytes} (h : r.recv = some (pre ++ bytes)) {i : Nat}
    (hi : i < bytes.length) : r.memory (pre.length + i) = bytes[i] := by
  unfold Reply.memory
  rw [h]
  show (pre ++ bytes).getD (pre.length + i) _ = _
  rw [List.getD_eq_getElem?_getD, List.getElem?_append_right (Nat.le_add_right _ _),
    Nat.add_sub_cancel_left, List.getElem?_eq_getElem hi]
  rfl

theorem bytesAt_append {r : Reply} {pre bytes rest : Bytes}
    (h : r.recv = some (pre ++ (bytes ++ rest))) :
    bytesAt r.memory pre.length bytes.length = bytes := by
  apply List.ext_getElem (length_bytesAt _ _ _)
  intro i _ hi
  have hi' : i < (bytes ++ rest).length := by
    rw [List.length_append]
    omega
  rw [getElem_bytesAt, memory_append h hi']
  exact List.getElem_append_left hi

/-- the datagram of an event, as the daemon lays it out -/
def datagram (header : Bytes) (type count : UInt8) (id payload : Bytes) : Bytes :=
  header ++ type :: count :: (id ++ payload)

/-- **The decoder undoes the layout**, for every count and every payload. -/
theorem decode_datagram {r : Reply} {header id payload : Bytes} {type count : UInt8}
    (hheader : header.length = sizeofNlmsghdr) (hid : id.length = count.toNat * pursuitIdLen)
    (h : r.recv = some (datagram header type count id payload)) :
    Event.decode r.memory (datagram header type count id payload).length =
      if type = publishedDataCode then
        ⟨type, id, some (idOffset + id.length), payload.length, some r.memory⟩
      else ⟨type, id, none, 0, some r.memory⟩ := by
  have htype : r.memory sizeofNlmsghdr = type := by
    rw [← hheader]
    exact memory_append (i := 0) h (by simp)
  have hcount : r.memory (sizeofNlmsghdr + 1) = count := by
    rw [← hheader]
    exact memory_append (i := 1) h (by simp)
  have hclaim : claimedIdLen r.memory = id.length := by
    rw [claimedIdLen, hcount, hid]
  have hbytes : bytesAt r.memory idOffset id.length = id := by
    have hsplit : datagram header type count id payload =
        (header ++ [type, count]) ++ (id ++ payload) := by simp [datagram]
    have hlen : (header ++ [type, count]).length = idOffset := by
      rw [List.length_append, hheader]
      rfl
    rw [← hlen]
    exact bytesAt_append (hsplit ▸ h)
  have hlength : ((datagram header type count id payload).length : Int) -
      (idOffset + id.length : Nat) = payload.length := by
    simp only [datagram, List.length_append, List.length_cons, hheader, idOffset]
    push_cast
    omega
  have hsmall : payload.length < 2 ^ 31 := by
    have hle := r.length_le _ h
    have hlt := r.totalBufSize_lt
    simp only [datagram, List.length_append, List.length_cons] at hle
    omega
  rw [decode_eq, htype, hclaim, hbytes, hlength]
  congr 2
  omega

/-! ## datagrams that are too short -/

/-- everything the event names lies inside `n` received bytes, and `data_len` did not wrap -/
structure Event.InRange (ev : Event) (n : Nat) : Prop where
  id : idOffset + ev.id.length ≤ n
  total : idOffset + ev.id.length + ev.dataLen ≤ n
  data : ∀ o ∈ ev.data, o + ev.dataLen ≤ n ∧ (ev.dataLen : Int) = n - o

/-- shorter than the fixed part, or than the count byte says -/
def TooShort (d : Bytes) : Prop :=
  d.length < idOffset + (d.getD (sizeofNlmsghdr + 1) 0).toNat * pursuitIdLen

instance (d : Bytes) : Decidable (TooShort d) := inferInstanceAs (Decidable (_ < _))

/-- what the event of a datagram has to satisfy -/
structure Event.Sound (ev : Event) (d : Bytes) : Prop where
  inRange : ev.type ≠ undefEvent → ev.InRange d.length
  tooShort : TooShort d → ev.type = undefEvent

theorem memory_of_lt {r : Reply} {d : Bytes} (h : r.recv = some d) {i : Nat} (hi : i < d.length) :
    r.memory i = d.getD i 0 := by
  unfold Reply.memory
  rw [h]
  exact (List.getD_eq_getElem d _ hi).trans (List.getD_eq_getElem d 0 hi).symm

theorem decode_inRange {r : Reply} {d : Bytes} (h : r.recv = some d) (hd : ¬ TooShort d) :
    (Event.decode r.memory d.length).InRange d.length := by
  have hlt : (d.length : Int) < 2 ^ 31 := lt_of_le_of_lt (r.length_le d h) r.totalBufSize_lt
  have hfit : idOffset + claimedIdLen r.memory ≤ d.length := by
    have hle : idOffset + (d.getD (sizeofNlmsghdr + 1) 0).toNat * pursuitIdLen ≤ d.length :=
      Nat.le_of_not_lt hd
    have hi : sizeofNlmsghdr + 1 < d.length := by
      show 17 < d.length
      have hoff : idOffset = 18 := rfl
      omega
    rw [claimedIdLen, memory_of_lt h hi]
    exact hle
  have hid := length_decode_id r.memory d.length
  by_cases ht : r.memory sizeofNlmsghdr = publishedDataCode
  · obtain ⟨hdata, hlen⟩ := decode_published d.length ht
    have hlen' : (Event.decode r.memory d.length).dataLen =
        d.length - (idOffset + claimedIdLen r.memory) := by
      rw [hlen]
      omega
    refine ⟨by omega, by omega, fun o ho => ?_⟩
    rw [hdata] at ho
    cases ho
    omega
  · obtain ⟨hdata, hlen⟩ := decode_other d.length ht
    refine ⟨by omega, by omega, fun o ho => ?_⟩
    rw [hdata] at ho
    cases ho

theorem decode_sound_iff {r : Reply} {d : Bytes} (h : r.recv = some d) :
    (Event.decode r.memory d.length).Sound d ↔
      ¬ TooShort d ∨ r.memory sizeofNlmsghdr = undefEvent := by
  constructor
  · intro hs
    by_cases hd : TooShort d
    · exact Or.inr (decode_type r.memory d.length ▸ hs.tooShort hd)
    · exact Or.inl hd
  · intro hor
    rcases hor with hd | ht
    · exact ⟨fun _ => decode_inRange h hd, fun hshort => absurd hshort hd⟩
    · have htype := (decode_type r.memory d.length).trans ht
      exact ⟨fun hne => absurd htype hne, fun _ => htype⟩

/-- **When the event of a datagram is in range**, on the blocking and on the non-blocking path:
the datagram is as long as its own count byte says, or its type byte is `UNDEF_EVENT`. -/
theorem inRange_iff (ev : Event) (r : Reply) (d : Bytes) (h : r.recv = some d)
    (hpos : 0 < d.length) :
    ((Blackadder.getEvent ev r).Sound d ↔
      ¬ TooShort d ∨ r.memory sizeofNlmsghdr = undefEvent) ∧
    ((∀ e ∈ NBBlackadder.selectorEvent r, e.Sound d) ↔
      ¬ TooShort d ∨ r.memory sizeofNlmsghdr = undefEvent) := by
  obtain ⟨hb, hn⟩ := events_of_received ev h hpos
  have hiff := decode_sound_iff h
  constructor
  · rw [hb]
    exact hiff
  · rw [hn]
    exact ⟨fun hall => hiff.mp (hall _ rfl), fun hc e he => Option.some.inj he ▸ hiff.mpr hc⟩

/-- published data whose count byte claims 255 fragments, with nothing behind it -/
def shortDatagram : Bytes := List.replicate 16 0 ++ [publishedDataCode, 255]

/-- a stop of publishing, for an identifier of one fragment -/
def stopDatagram : Bytes := datagram (List.replicate 16 0) 101 1 [1, 2, 3, 4, 5, 6, 7, 8] []

/-- a datagram received as a whole, in memory that was zero -/
def Reply.whole (d : Bytes) (hd : (d.length : Int) < 2 ^ 31) : Reply where
  totalBufSize := d.length
  totalBufSize_lt := hd
  recv := some d
  length_le := fun _ hb => Option.some.inj hb ▸ le_refl _
  beyond := fun _ => 0

theorem stopDatagram_length : (stopDatagram.length : Int) < 2 ^ 31 := by decide

theorem shortDatagram_length : (shortDatagram.length : Int) < 2 ^ 31 := by decide

theorem inRange_iff_stop :
    (Blackadder.getEvent Event.new (Reply.whole stopDatagram stopDatagram_length)).Sound
      stopDatagram ∧
    ∀ e ∈ NBBlackadder.selectorEvent (Reply.whole stopDatagram stopDatagram_length),
      e.Sound stopDatagram :=
  have hiff := inRange_iff Event.new (Reply.whole stopDatagram stopDatagram_length) stopDatagram rfl
    (by decide)
  ⟨hiff.1.mpr (Or.inl (by decide)), hiff.2.mpr (Or.inl (by decide))⟩

theorem shortDatagram_delivered :
    (¬ ∀ (r : Reply) (d : Bytes), r.recv = some d → 0 < d.length →
      (Blackadder.getEvent Event.new r).Sound d) ∧
    (¬ ∀ (r : Reply) (d : Bytes), r.recv = some d → 0 < d.length →
      ∀ e ∈ NBBlackadder.selectorEvent r, e.Sound d) := by
  constructor
  · intro hall
    have hs := hall (Reply.whole shortDatagram shortDatagram_length) shortDatagram rfl (by decide)
    exact absurd (hs.tooShort (by decide)) (by decide)
  · intro hall
    have hs := hall (Reply.whole shortDatagram shortDatagram_length) shortDatagram rfl
      (by decide) _ rfl
    exact absurd (hs.tooShort (by decide)) (by decide)

/-! ## the two paths on every outcome -/

/-- the bytes that `data` and `data_len` delimit, none for NULL -/
def Event.dataBytes (ev : Event) : Bytes :=
  match ev.buffer, ev.data with
  | some buffer, some data => bytesAt buffer data ev.dataLen
  | _, _ => []

/-- `getEvent` makes typed fields of the message: a fresh event gets a buffer -/
def Blackadder.Decodes (r : Reply) : Prop := (Blackadder.getEvent Event.new r).buffer.isSome

instance (r : Reply) : Decidable (Blackadder.Decodes r) :=
  inferInstanceAs (Decidable ((Blackadder.getEvent Event.new r).buffer.isSome = true))

/-- an event is queued exactly when the blocking call decodes one, whatever the event passed to
it held before, and then both tell the same -/
structure PathsAgree (ev : Event) (r : Reply) : Prop where
  queued_iff : (NBBlackadder.selectorEvent r).isSome ↔ Blackadder.Decodes r
  type : ∀ e ∈ NBBlackadder.selectorEvent r, e.type = (Blackadder.getEvent ev r).type
  id : ∀ e ∈ NBBlackadder.selectorEvent r, e.id = (Blackadder.getEvent ev r).id
  dataBytes : ∀ e ∈ NBBlackadder.selectorEvent r,
    e.dataBytes = (Blackadder.getEvent ev r).dataBytes
  dataLen : ∀ e ∈ NBBlackadder.selectorEvent r, e.dataLen = (Blackadder.getEvent ev r).dataLen

theorem getEvent_empty (ev : Event) {r : Reply} (h : ¬ 0 < r.totalBufSize) :
    Blackadder.getEvent ev r = { ev with type := undefEvent } := if_neg h

theorem getEvent_failed (ev : Event) {r : Reply} (h : r.recv = none) :
    Blackadder.getEvent ev r = { ev with type := undefEvent } := by
  have hread : r.bytesRead < 0 := by
    rw [Reply.bytesRead, h]
    decide
  unfold Blackadder.getEvent
  rw [if_pos hread, ite_self]

theorem getEvent_received (ev : Event) {r : Reply} {bytes : Bytes} (hpos : 0 < r.totalBufSize)
    (h : r.recv = some bytes) :
    Blackadder.getEvent ev r = Event.decode r.memory r.bytesRead := by
  have hread : ¬ r.bytesRead < 0 := by
    rw [Reply.bytesRead, h]
    exact not_lt.mpr (Int.natCast_nonneg _)
  unfold Blackadder.getEvent
  rw [if_pos hpos, if_neg hread]

theorem decode_buffer (buffer : Nat → UInt8) (n : Int) :
    (Event.decode buffer n).buffer = some buffer := by
  rw [decode_eq]
  split <;> rfl

theorem pathsAgree_of_some {ev : Event} {r : Reply}
    (hsel : NBBlackadder.selectorEvent r = some (Blackadder.getEvent ev r))
    (hdec : Blackadder.Decodes r) : PathsAgree ev r := by
  have hsame : ∀ e ∈ NBBlackadder.selectorEvent r, e = Blackadder.getEvent ev r := by
    intro e he
    rw [hsel] at he
    exact (Option.some.inj he).symm
  refine ⟨⟨fun _ => hdec, fun _ => by rw [hsel]; rfl⟩, ?_, ?_, ?_, ?_⟩ <;>
  · intro e he
    rw [hsame e he]

theorem pathsAgree_of_none (ev : Event) {r : Reply} (hsel : NBBlackadder.selectorEvent r = none)
    (hno : ¬ Blackadder.Decodes r) : PathsAgree ev r := by
  have hnil : ∀ e, e ∉ NBBlackadder.selectorEvent r := by
    intro e he
    rw [hsel] at he
    cases he
  have hqueued : ¬ (NBBlackadder.selectorEvent r).isSome := by
    rw [hsel]
    exact Bool.false_ne_true
  exact ⟨⟨fun h => absurd h hqueued, fun h => absurd h hno⟩, fun e he => absurd he (hnil e),
    fun e he => absurd he (hnil e), fun e he => absurd he (hnil e),
    fun e he => absurd he (hnil e)⟩

/-- **When the two receive paths agree**: for every result of the peek, of `recvmsg` and every
content of the memory, unless the peek reports a message and `recvmsg` then fails, which only the
blocking path looks at. -/
theorem pathsAgree_iff (ev : Event) (r : Reply) :
    PathsAgree ev r ↔ (0 < r.totalBufSize → r.recv ≠ none) := by
  by_cases hpos : 0 < r.totalBufSize
  · have hsel : NBBlackadder.selectorEvent r = some (Event.decode r.memory r.bytesRead) :=
      if_pos hpos
    cases hr : r.recv with
    | none =>
      refine ⟨fun h => ?_, fun h => absurd rfl (h hpos)⟩
      have hdec := h.queued_iff.mp (by rw [hsel]; rfl)
      rw [Blackadder.Decodes, getEvent_failed Event.new hr] at hdec
      cases hdec
    | some bytes =>
      refine ⟨fun _ _ => Option.some_ne_none bytes, fun _ => ?_⟩
      have hdec : Blackadder.Decodes r := by
        rw [Blackadder.Decodes, getEvent_received Event.new hpos hr, decode_buffer]
        rfl
      refine pathsAgree_of_some ?_ hdec
      rw [hsel, getEvent_received ev hpos hr]
  · refine ⟨fun _ h => absurd h hpos, fun _ => pathsAgree_of_none ev (if_neg hpos) ?_⟩
    rw [Blackadder.Decodes, getEvent_empty Event.new hpos]
    exact Bool.false_ne_true

/-- the peek reports twenty bytes, and the `recvmsg` after it fails -/
def Reply.lost : Reply where
  totalBufSize := 20
  totalBufSize_lt := by norm_num
  recv := none
  length_le := nofun
  beyond := fun _ => 104

/-- The selector makes an event of memory that nothing was received into. -/
theorem lost_delivered : ¬ ∀ (ev : Event) (r : Reply), PathsAgree ev r := by
  intro h
  have hdec := (h Event.new Reply.lost).queued_iff.mp rfl
  exact absurd hdec (by decide)

end BA
