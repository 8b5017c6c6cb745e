import BlackadderJNI.Native.Request

/-!
# What the four encoders emit

* `header`                     the sixteen bytes of the `nlmsghdr`;
* `bodySegs`, `dataSegs`       the segments after it, of a scope or item request and of
                               `publish_data`;
* `createAndSendBuffers_eq`, `push_eq`, `publishData_blocking_eq`, `publishData_nb_eq`
                               each encoder as a header and these segments;
* `requests_agree`             when the two libraries emit the same message.
-/

namespace BA
open Wire

/-! ## the header -/

def header (nlmsgLen pid : Nat) (seq : Bytes) : Bytes :=
  leBytes 4 nlmsgLen ++ leBytes 2 0 ++ leBytes 2 1 ++ seq ++ leBytes 4 pid

/-- what fresh memory holds where `nlmsg_seq` will be -/
def Env.seq (e : Env) : Bytes := [e.heap 8, e.heap 9, e.heap 10, e.heap 11]

theorem length_header (n pid : Nat) (e : Env) : (header n pid e.seq).length = 16 := by
  simp [header, Env.seq]

theorem fillHeader_append (e : Env) (n : Nat) (rest : Bytes) :
    fillHeader e n ((List.range 16).map e.heap ++ rest) =
      some (header n e.pid e.seq ++ rest) := by
  simp [fillHeader, writes, write, leBytes, List.range, List.range.loop, header, Env.seq]

theorem fillHeader_short (e : Env) (n : Nat) {b : Bytes} (h : b.length < 16) :
    fillHeader e n b = none := by
  unfold fillHeader
  cases hw : write b 0 (leBytes 4 n) with
  | none => simp [writes, hw]
  | some b' =>
    have hlen : b'.length = b.length := by
      unfold write at hw
      split at hw
      · cases hw
        simp only [List.length_append, List.length_take, List.length_drop, length_leBytes] at *
        omega
      · cases hw
    have hw' : write b' 12 (leBytes 4 e.pid) = none := by
      unfold write
      rw [length_leBytes, if_neg (by omega)]
    simp [writes, hw, hw']

theorem malloc_nlmsghdr (e : Env) : malloc e sizeofNlmsghdr = some ((List.range 16).map e.heap) :=
  rfl

theorem header_blocking (e : Env) (n : Nat) :
    (malloc e sizeofNlmsghdr).bind (fillHeader e n) = some (header n e.pid e.seq) := by
  rw [malloc_nlmsghdr]
  have h := fillHeader_append e n []
  rw [List.append_nil, List.append_nil] at h
  exact h

/-! ## a buffer filled with consecutive copies -/

theorem toInt_small {n : Nat} (h : n < 2 ^ 31) : toInt n = n := by
  unfold toInt
  rw [Int.bmod_def]
  omega

theorem toInt_large {n : Nat} (h : ¬ n < 2 ^ 31) : toInt n < n := by
  unfold toInt
  rw [Int.bmod_def]
  omega

/-- the common part of `push` and `publish_data` -/
def fillBuffer (e : Env) (n : Int) (nlmsgLen : Nat) (segs : List Bytes) : Option Bytes := do
  let buffer ← malloc e n
  let buffer ← fillHeader e nlmsgLen buffer
  writes buffer (layout sizeofNlmsghdr segs)

theorem fillBuffer_nat (e : Env) (n nlmsgLen : Nat) (segs : List Bytes) :
    fillBuffer e n nlmsgLen segs =
      if 16 + segs.flatten.length ≤ n then
        some (header nlmsgLen e.pid e.seq ++ segs.flatten ++
          ((List.range n).map e.heap).drop (16 + segs.flatten.length))
      else none := by
  have hm : malloc e n = some ((List.range n).map e.heap) := by
    unfold malloc
    rw [if_neg (by omega), Int.toNat_natCast]
  unfold fillBuffer
  simp only [hm, Option.bind_eq_bind, Option.bind_some]
  by_cases h16 : 16 ≤ n
  · have hsplit : (List.range n).map e.heap =
        (List.range 16).map e.heap ++ ((List.range n).map e.heap).drop 16 := by
      conv_lhs => rw [← List.take_append_drop 16 ((List.range n).map e.heap)]
      rw [← List.map_take, List.take_range, Nat.min_eq_left h16]
    have hlen : sizeofNlmsghdr = (header nlmsgLen e.pid e.seq).length :=
      (length_header _ _ e).symm
    rw [hsplit, fillHeader_append, hlen, Option.bind_some, writes_layout, List.length_drop,
      List.length_map, List.length_range, List.drop_drop, ← hsplit]
    by_cases hs : 16 + segs.flatten.length ≤ n
    · rw [if_pos hs, if_pos (by omega)]
    · rw [if_neg hs, if_neg (by omega)]
  · rw [fillHeader_short e nlmsgLen (by simpa using h16), if_neg (by omega)]
    rfl

theorem fillBuffer_eq (e : Env) (total nlmsgLen : Nat) (segs : List Bytes)
    (ht : total = 16 + segs.flatten.length) :
    fillBuffer e (toInt total) nlmsgLen segs =
      if total < 2 ^ 31 then some (header nlmsgLen e.pid e.seq ++ segs.flatten) else none := by
  by_cases h : total < 2 ^ 31
  · rw [toInt_small h, fillBuffer_nat, if_pos h, if_pos (by omega)]
    have hd : ((List.range total).map e.heap).drop (16 + segs.flatten.length) = [] :=
      List.drop_eq_nil_of_le (by simp [ht])
    rw [hd, List.append_nil]
  · rw [if_neg h]
    have hlt := toInt_large h
    by_cases hneg : toInt total < 0
    · simp [fillBuffer, malloc, hneg]
    · obtain ⟨n, hn⟩ := Int.eq_ofNat_of_zero_le (not_lt.mp hneg)
      rw [hn] at hlt ⊢
      rw [fillBuffer_nat, if_neg (by omega)]

/-! ## the four encoders -/

def bodySegs (type : UInt8) (a : Args) : List Bytes :=
  [[type], [UInt8.ofNat (a.id.length / pursuitIdLen)], a.id,
    [UInt8.ofNat (a.prefixId.length / pursuitIdLen)], a.prefixId, [a.strategy]] ++
    segment a.strOpt

def dataSegs (d : DataArgs) : List Bytes :=
  [[publishDataCode], [UInt8.ofNat (d.id.length / pursuitIdLen)], d.id, [d.strategy]] ++
    segment d.strOpt

/-- the length of the message -/
def Args.total (a : Args) : Nat :=
  16 + 1 + 1 + a.id.length + 1 + a.prefixId.length + 1 + (optBytes a.strOpt).length

/-- the length of the message up to the data -/
def DataArgs.headTotal (d : DataArgs) : Nat :=
  16 + 1 + 1 + d.id.length + 1 + (optBytes d.strOpt).length

def DataArgs.total (d : DataArgs) : Nat := d.headTotal + d.data.bytes.length

theorem Args.total_some (id prefixId : Bytes) (strategy : UInt8) (o : Block) :
    (⟨id, prefixId, strategy, some o⟩ : Args).total =
      sizeofNlmsghdr + 1 + 1 + id.length + 1 + prefixId.length + 1 + o.bytes.length := by
  simp [Args.total, optBytes, segment, sizeofNlmsghdr]

theorem DataArgs.headTotal_some (id : Bytes) (strategy : UInt8) (o data : Block) :
    (⟨id, strategy, some o, data⟩ : DataArgs).headTotal =
      sizeofNlmsghdr + 1 + 1 + id.length + 1 + o.bytes.length := by
  simp [DataArgs.headTotal, optBytes, segment, sizeofNlmsghdr]

theorem length_bodySegs (type : UInt8) (a : Args) :
    a.total = 16 + (bodySegs type a).flatten.length := by
  simp [bodySegs, Args.total, optBytes]
  omega

theorem length_dataSegs (d : DataArgs) : d.headTotal = 16 + (dataSegs d).flatten.length := by
  simp [dataSegs, DataArgs.headTotal, optBytes]
  omega

theorem createAndSendBuffers_eq (e : Env) (type : UInt8) (a : Args) :
    Blackadder.createAndSendBuffers e type a =
      .message (header a.total e.pid e.seq :: bodySegs type a) := by
  obtain ⟨id, prefixId, strategy, strOpt⟩ := a
  cases strOpt with
  | none =>
    simp only [Blackadder.createAndSendBuffers, header_blocking]
    rfl
  | some o =>
    simp only [Blackadder.createAndSendBuffers, header_blocking, Args.total_some]
    rfl

theorem push_fillBuffer (e : Env) (type : UInt8) (a : Args) :
    NBBlackadder.push e type a = NBBlackadder.queued
      (fillBuffer e (toInt a.total) (toInt a.total).toNat (bodySegs type a)) [] := by
  obtain ⟨id, prefixId, strategy, strOpt⟩ := a
  cases strOpt with
  | none => rfl
  | some o =>
    simp only [NBBlackadder.push, Args.total_some, fillBuffer, bodySegs, segment,
      NBBlackadder.optCopy, layout, List.cons_append, List.nil_append, List.length_singleton]

theorem push_eq (e : Env) (type : UInt8) (a : Args) :
    NBBlackadder.push e type a =
      if a.total < 2 ^ 31 then
        .message [header a.total e.pid e.seq ++ (bodySegs type a).flatten]
      else .undefined := by
  rw [push_fillBuffer, fillBuffer_eq _ _ _ _ (length_bodySegs type a)]
  by_cases h : a.total < 2 ^ 31
  · rw [if_pos h, if_pos h, toInt_small h, Int.toNat_natCast]
    rfl
  · rw [if_neg h, if_neg h]
    rfl

theorem publishData_blocking_eq (e : Env) (d : DataArgs) :
    Blackadder.publishData e d =
      if 8 ∣ d.id.length then
        .message (header d.total e.pid e.seq :: dataSegs d ++ [d.data.bytes])
      else .printed "Blackadder Library: Could not send  - wrong ID size" := by
  have hdvd : (d.id.length % pursuitIdLen != 0) = true ↔ ¬ 8 ∣ d.id.length := by
    simp [pursuitIdLen, Nat.dvd_iff_mod_eq_zero]
  unfold Blackadder.publishData
  by_cases h : 8 ∣ d.id.length
  · rw [if_neg fun hb => hdvd.mp hb h, if_pos h]
    obtain ⟨id, strategy, strOpt, data⟩ := d
    cases strOpt with
    | none =>
      simp only [header_blocking]
      rfl
    | some o =>
      simp only [header_blocking, DataArgs.total, DataArgs.headTotal_some]
      rfl
  · rw [if_pos (hdvd.mpr h), if_neg h]

theorem publishData_fillBuffer (e : Env) (d : DataArgs) :
    NBBlackadder.publishData e d = NBBlackadder.queued
      (fillBuffer e (toInt d.headTotal) ((toInt d.headTotal).toNat + d.data.bytes.length)
        (dataSegs d)) [d.data.bytes] := by
  obtain ⟨id, strategy, strOpt, data⟩ := d
  cases strOpt with
  | none => rfl
  | some o =>
    simp only [NBBlackadder.publishData, DataArgs.headTotal_some, fillBuffer, dataSegs, segment,
      NBBlackadder.optCopy, layout, List.cons_append, List.nil_append, List.length_singleton]

theorem publishData_nb_eq (e : Env) (d : DataArgs) :
    NBBlackadder.publishData e d =
      if d.headTotal < 2 ^ 31 then
        .message [header d.total e.pid e.seq ++ (dataSegs d).flatten, d.data.bytes]
      else .undefined := by
  rw [publishData_fillBuffer, fillBuffer_eq _ _ _ _ (length_dataSegs d)]
  by_cases h : d.headTotal < 2 ^ 31
  · rw [if_pos h, if_pos h, toInt_small h, Int.toNat_natCast]
    rfl
  · rw [if_neg h, if_neg h]
    rfl

/-! ## agreement -/

def RequestType.name : RequestType → String
  | .publishScope => "PUBLISH_SCOPE"
  | .publishInfo => "PUBLISH_INFO"
  | .unpublishScope => "UNPUBLISH_SCOPE"
  | .unpublishInfo => "UNPUBLISH_INFO"
  | .subscribeScope => "SUBSCRIBE_SCOPE"
  | .subscribeInfo => "SUBSCRIBE_INFO"
  | .unsubscribeScope => "UNSUBSCRIBE_SCOPE"
  | .unsubscribeInfo => "UNSUBSCRIBE_INFO"

/-- the checks of a request, in their order -/
def RequestType.checks : RequestType → List Check
  | .publishScope => [.idSize, .prefixSize, .idEmpty]
  | .publishInfo => [.idSize, .prefixSize, .prefixEmpty, .prefixEmpty]
  | .unpublishScope | .subscribeScope | .unsubscribeScope =>
    [.idSize, .prefixSize, .idEmpty, .idFragments]
  | .unpublishInfo | .subscribeInfo | .unsubscribeInfo =>
    [.idSize, .prefixSize, .idEmpty, .prefixEmpty, .idFragments]

theorem request_blocking (e : Env) (ty : RequestType) (a : Args) :
    Blackadder.request e ty a = ladder Blackadder.library ty.name ty.checks a
      (Blackadder.createAndSendBuffers e ty.code a) := by
  cases ty <;> rfl

theorem request_nb (e : Env) (ty : RequestType) (a : Args) :
    NBBlackadder.request e ty a = ladder NBBlackadder.library ty.name ty.checks a
      (NBBlackadder.push e ty.code a) := by
  cases ty <;> rfl

/-- the arguments pass the checks of the request -/
def Accepted (ty : RequestType) (a : Args) : Prop := ∀ c ∈ ty.checks, Check.fails a c = false

instance (ty : RequestType) (a : Args) : Decidable (Accepted ty a) :=
  inferInstanceAs (Decidable (∀ c ∈ ty.checks, Check.fails a c = false))

theorem ladder_accepted {ty : RequestType} {a : Args} (h : Accepted ty a)
    (library request : String) (send : Outcome) :
    ladder library request ty.checks a send = send := by
  have hf : ty.checks.find? (Check.fails a) = none :=
    List.find?_eq_none.mpr fun c hc => by simp [h c hc]
  unfold ladder
  rw [hf]

theorem ladder_rejected {ty : RequestType} {a : Args} (h : ¬ Accepted ty a)
    (library request : String) (send : Outcome) :
    ∃ text, ladder library request ty.checks a send = .printed text := by
  unfold ladder
  cases hf : ty.checks.find? (Check.fails a) with
  | some c => exact ⟨_, rfl⟩
  | none =>
    refine absurd (fun c hc => ?_) h
    simpa using List.find?_eq_none.mp hf c hc

/-- the same bytes except `nlmsg_seq` -/
def SameButSeq (m m' : Bytes) : Prop :=
  m.take 8 = m'.take 8 ∧ m.drop 12 = m'.drop 12 ∧ m.length = m'.length

theorem header_sameButSeq (n : Nat) (pid : Nat) (e e' : Env) (body : Bytes) :
    SameButSeq (header n pid e.seq ++ body) (header n pid e'.seq ++ body) := by
  simp [SameButSeq, header, Env.seq, leBytes]

/-- both libraries print, or both emit the same message -/
def Agree : Outcome → Outcome → Prop
  | .printed _, .printed _ => True
  | .message iov, .message iov' => SameButSeq iov.flatten iov'.flatten
  | _, _ => False

/-- **The blocking and the non-blocking request agree** exactly when the checks reject it or the
message is shorter than 2^31 bytes; for `publish_data`, exactly when the identifier has whole
fragments and what comes before the data is shorter than 2^31 bytes. -/
theorem requests_agree (pid : Nat) (heap heap' : Nat → UInt8) :
    (∀ (ty : RequestType) (a : Args),
      Agree (Blackadder.request ⟨pid, heap⟩ ty a) (NBBlackadder.request ⟨pid, heap'⟩ ty a) ↔
        (Accepted ty a → a.total < 2 ^ 31)) ∧
    (∀ d : DataArgs,
      Agree (Blackadder.publishData ⟨pid, heap⟩ d) (NBBlackadder.publishData ⟨pid, heap'⟩ d) ↔
        (8 ∣ d.id.length ∧ d.headTotal < 2 ^ 31)) := by
  constructor
  · intro ty a
    rw [request_blocking, request_nb]
    by_cases h : Accepted ty a
    · rw [ladder_accepted h, ladder_accepted h, createAndSendBuffers_eq, push_eq]
      by_cases ht : a.total < 2 ^ 31
      · rw [if_pos ht]
        refine ⟨fun _ _ => ht, fun _ => ?_⟩
        simpa [Agree] using header_sameButSeq a.total pid ⟨pid, heap⟩ ⟨pid, heap'⟩ _
      · rw [if_neg ht]
        exact ⟨fun hf => hf.elim, fun hi => absurd (hi h) ht⟩
    · obtain ⟨text, e⟩ := ladder_rejected h Blackadder.library ty.name
        (Blackadder.createAndSendBuffers ⟨pid, heap⟩ ty.code a)
      obtain ⟨text', e'⟩ := ladder_rejected h NBBlackadder.library ty.name
        (NBBlackadder.push ⟨pid, heap'⟩ ty.code a)
      rw [e, e']
      exact ⟨fun _ ha => absurd ha h, fun _ => trivial⟩
  · intro d
    rw [publishData_blocking_eq, publishData_nb_eq]
    by_cases h : 8 ∣ d.id.length
    · rw [if_pos h]
      by_cases ht : d.headTotal < 2 ^ 31
      · rw [if_pos ht]
        refine ⟨fun _ => ⟨h, ht⟩, fun _ => ?_⟩
        simpa [Agree] using header_sameButSeq d.total pid ⟨pid, heap⟩ ⟨pid, heap'⟩ _
      · rw [if_neg ht]
        exact ⟨fun hf => hf.elim, fun hi => absurd hi.2 ht⟩
    · rw [if_neg h]
      refine ⟨fun hf => ?_, fun hi => absurd hi.1 h⟩
      split_ifs at hf
      · exact hf.elim
      · exact hf.elim

/-- a request for an item of one fragment, with data but without options -/
def shortBlock : Block := ⟨[7], by simp⟩

theorem requests_agree_item :
    Agree (Blackadder.request ⟨1, fun _ => 0⟩ .subscribeInfo
        ⟨[1, 2, 3, 4, 5, 6, 7, 8], [1, 1, 1, 1, 1, 1, 1, 1], 0, some shortBlock⟩)
      (NBBlackadder.request ⟨1, fun _ => 9⟩ .subscribeInfo
        ⟨[1, 2, 3, 4, 5, 6, 7, 8], [1, 1, 1, 1, 1, 1, 1, 1], 0, some shortBlock⟩) :=
  ((requests_agree 1 (fun _ => 0) fun _ => 9).1 _ _).mpr fun _ => by decide

/-- `publish_data` with an identifier of five bytes: one library prints, the other queues it. -/
theorem requests_disagree :
    ¬ ∀ d : DataArgs, Agree (Blackadder.publishData ⟨1, fun _ => 0⟩ d)
      (NBBlackadder.publishData ⟨1, fun _ => 0⟩ d) := by
  intro h
  have h5 := h ⟨[1, 2, 3, 4, 5], 0, none, shortBlock⟩
  rw [publishData_blocking_eq, publishData_nb_eq, if_neg (by decide), if_pos (by decide)] at h5
  exact h5

end BA
