import BlackadderJNI.Native.Encoding

/-!
# Reading a request back

* `decode`              header, type byte, fragments of the identifier, then (but for
                        `PUBLISH_DATA`) fragments of the prefix, strategy byte, the rest;
* `decodeBody_some`     what it accepts is well formed;
* `Fits`                an identifier of whole fragments, whose number fits the count byte;
* `framing_exact`       an accepted request is emitted as a message that decodes to it, with its
                        own length in the header, exactly when the identifiers and the lengths fit.
-/

namespace BA
open Wire

/-- the fields of a request after the header -/
structure Body where
  type : UInt8
  id : Bytes
  prefixId : Option Bytes
  strategy : UInt8
  rest : Bytes
  deriving DecidableEq, Repr

structure Frame where
  nlmsgLen : Nat
  body : Body
  deriving DecidableEq, Repr

def readByte : Bytes → Option (UInt8 × Bytes)
  | [] => none
  | b :: l => some (b, l)

/-- a count byte and that many fragments -/
def readFragments (l : Bytes) : Option (Bytes × Bytes) := do
  let (n, l) ← readByte l
  readN (pursuitIdLen * n.toNat) l

def decodeBody (l : Bytes) : Option Body := do
  let (type, l) ← readByte l
  let (id, l) ← readFragments l
  if type = publishDataCode then
    let (strategy, rest) ← readByte l
    some ⟨type, id, none, strategy, rest⟩
  else
    let (prefixId, l) ← readFragments l
    let (strategy, rest) ← readByte l
    some ⟨type, id, some prefixId, strategy, rest⟩

def decode (msg : Bytes) : Option Frame := do
  let (nlh, l) ← readN sizeofNlmsghdr msg
  let body ← decodeBody l
  some ⟨leValue (nlh.take 4), body⟩

/-! ## what the decoder accepts -/

theorem readByte_some {l l' : Bytes} {b : UInt8} (h : readByte l = some (b, l')) :
    l = b :: l' := by
  cases l with
  | nil => cases h
  | cons c l =>
    cases h
    rfl

theorem readFragments_some {l id l' : Bytes} (h : readFragments l = some (id, l')) :
    ∃ n : UInt8, l = n :: (id ++ l') ∧ id.length = pursuitIdLen * n.toNat := by
  obtain ⟨⟨n, r⟩, hb, hn⟩ := Option.bind_eq_some_iff.mp h
  obtain ⟨e, hlen⟩ := readN_some hn
  exact ⟨n, by rw [readByte_some hb, e], hlen⟩

theorem readFragments_cons {n : UInt8} {id l : Bytes} (h : id.length = pursuitIdLen * n.toNat) :
    readFragments (n :: (id ++ l)) = some (id, l) := by
  show readN (pursuitIdLen * n.toNat) (id ++ l) = _
  rw [← h]
  exact readN_append id l

theorem decodeBody_data {n strategy : UInt8} {id rest : Bytes}
    (h : id.length = pursuitIdLen * n.toNat) :
    decodeBody (publishDataCode :: n :: (id ++ strategy :: rest)) =
      some ⟨publishDataCode, id, none, strategy, rest⟩ := by
  simp [decodeBody, readByte, readFragments_cons h]

theorem decodeBody_scoped {type n m strategy : UInt8} {id prefixId rest : Bytes}
    (ht : type ≠ publishDataCode) (h : id.length = pursuitIdLen * n.toNat)
    (h' : prefixId.length = pursuitIdLen * m.toNat) :
    decodeBody (type :: n :: (id ++ m :: (prefixId ++ strategy :: rest))) =
      some ⟨type, id, some prefixId, strategy, rest⟩ := by
  simp [decodeBody, readByte, readFragments_cons h, readFragments_cons h', ht]

theorem decodeBody_some {l : Bytes} {b : Body} (h : decodeBody l = some b) :
    ∃ n : UInt8, b.id.length = pursuitIdLen * n.toNat ∧
      match b.prefixId with
      | none => b.type = publishDataCode ∧ l = b.type :: n :: (b.id ++ b.strategy :: b.rest)
      | some prefixId => b.type ≠ publishDataCode ∧ ∃ m : UInt8,
        prefixId.length = pursuitIdLen * m.toNat ∧
        l = b.type :: n :: (b.id ++ m :: (prefixId ++ b.strategy :: b.rest)) := by
  obtain ⟨⟨type, l₁⟩, htype, h⟩ := Option.bind_eq_some_iff.mp h
  obtain ⟨⟨id, l₂⟩, hid, h⟩ := Option.bind_eq_some_iff.mp h
  obtain ⟨n, e₁, hn⟩ := readFragments_some hid
  rw [readByte_some htype, e₁]
  dsimp only at h
  split at h
  · next ht =>
    obtain ⟨⟨strategy, rest⟩, hs, h⟩ := Option.bind_eq_some_iff.mp h
    cases h
    exact ⟨n, hn, ht, by rw [readByte_some hs]⟩
  · next ht =>
    obtain ⟨⟨prefixId, l₃⟩, hp, h⟩ := Option.bind_eq_some_iff.mp h
    obtain ⟨⟨strategy, rest⟩, hs, h⟩ := Option.bind_eq_some_iff.mp h
    cases h
    obtain ⟨m, e₂, hm⟩ := readFragments_some hp
    have e₃ : l₃ = strategy :: rest := readByte_some hs
    exact ⟨n, hn, ht, m, hm, by rw [e₂, e₃]⟩

/-! ## the requests -/

/-- whole fragments, and their number fits the count byte -/
def Fits (id : Bytes) : Prop := 8 ∣ id.length ∧ id.length / 8 < 256

theorem fits_iff (id : Bytes) :
    id.length = pursuitIdLen * (UInt8.ofNat (id.length / pursuitIdLen)).toNat ↔ Fits id := by
  have e : (UInt8.ofNat (id.length / 8)).toNat = id.length / 8 % 256 := UInt8.toNat_ofNat'
  unfold Fits pursuitIdLen
  rw [e]
  omega

def Args.body (ty : RequestType) (a : Args) : Body :=
  ⟨ty.code, a.id, some a.prefixId, a.strategy, optBytes a.strOpt⟩

def DataArgs.body (d : DataArgs) : Body :=
  ⟨publishDataCode, d.id, none, d.strategy, optBytes d.strOpt ++ d.data.bytes⟩

theorem RequestType.code_ne (ty : RequestType) : ty.code ≠ publishDataCode := by
  cases ty <;> decide

theorem flatten_bodySegs (type : UInt8) (a : Args) :
    (bodySegs type a).flatten = type :: UInt8.ofNat (a.id.length / pursuitIdLen) ::
      (a.id ++ UInt8.ofNat (a.prefixId.length / pursuitIdLen) ::
        (a.prefixId ++ a.strategy :: optBytes a.strOpt)) := by
  simp [bodySegs, optBytes]

theorem flatten_dataSegs (d : DataArgs) :
    (dataSegs d).flatten ++ d.data.bytes = publishDataCode ::
      UInt8.ofNat (d.id.length / pursuitIdLen) ::
        (d.id ++ d.strategy :: (optBytes d.strOpt ++ d.data.bytes)) := by
  simp [dataSegs, optBytes]

theorem decodeBody_args (ty : RequestType) (a : Args) :
    decodeBody (bodySegs ty.code a).flatten = some (a.body ty) ↔ Fits a.id ∧ Fits a.prefixId := by
  rw [flatten_bodySegs]
  constructor
  · intro h
    obtain ⟨n, hn, _, m, hm, e⟩ := decodeBody_some h
    obtain ⟨_, e⟩ := List.cons.inj e
    obtain ⟨en, e⟩ := List.cons.inj e
    obtain ⟨em, _⟩ := List.cons.inj (List.append_cancel_left e)
    exact ⟨(fits_iff a.id).mp (en ▸ hn), (fits_iff a.prefixId).mp (em ▸ hm)⟩
  · rintro ⟨h, h'⟩
    exact decodeBody_scoped ty.code_ne ((fits_iff a.id).mpr h) ((fits_iff a.prefixId).mpr h')

theorem decodeBody_dataArgs (d : DataArgs) :
    decodeBody ((dataSegs d).flatten ++ d.data.bytes) = some d.body ↔ Fits d.id := by
  rw [flatten_dataSegs]
  constructor
  · intro h
    obtain ⟨n, hn, _, e⟩ := decodeBody_some h
    obtain ⟨_, e⟩ := List.cons.inj e
    obtain ⟨en, _⟩ := List.cons.inj e
    exact (fits_iff d.id).mp (en ▸ hn)
  · intro h
    exact decodeBody_data ((fits_iff d.id).mpr h)

theorem leValue_header (n pid : Nat) (e : Env) :
    leValue ((header n pid e.seq).take 4) = n % 2 ^ 32 := by
  have h : (header n pid e.seq).take 4 = leBytes 4 n := by simp [header, leBytes]
  rw [h, leValue_leBytes]
  norm_num

theorem decode_header (n pid : Nat) (e : Env) (l : Bytes) :
    decode (header n pid e.seq ++ l) = (decodeBody l).map fun b => ⟨n % 2 ^ 32, b⟩ := by
  have h : readN sizeofNlmsghdr (header n pid e.seq ++ l) = some (header n pid e.seq, l) := by
    have h16 := readN_append (header n pid e.seq) l
    rwa [length_header] at h16
  unfold decode
  rw [h]
  show (decodeBody l).bind _ = _
  cases decodeBody l with
  | none => rfl
  | some b => exact congrArg some (congrArg (Frame.mk · b) (leValue_header n pid e))

theorem drop_header (n pid : Nat) (e : Env) (l : Bytes) :
    (header n pid e.seq ++ l).drop 16 = l := by
  rw [← length_header n pid e, List.drop_left]

/-- a message of length `n` whose header says `n`, and what its body decodes to -/
theorem decode_message (n pid : Nat) (e : Env) {l : Bytes} (hl : n = 16 + l.length) (b : Body) :
    decode (header n pid e.seq ++ l) = some ⟨(header n pid e.seq ++ l).length, b⟩ ↔
      decodeBody l = some b ∧ n < 2 ^ 32 := by
  rw [decode_header, List.length_append, length_header, ← hl]
  cases decodeBody l with
  | none => simp
  | some b' =>
    simp only [Option.map_some, Option.some.injEq, Frame.mk.injEq]
    rw [and_comm, Nat.mod_eq_iff_lt (by norm_num)]

/-! ## the messages of the two libraries -/

/-- the message `iov` of a scope or item request, on one of the libraries -/
def Emits (e : Env) (ty : RequestType) (a : Args) (iov : List Bytes) : Prop :=
  Blackadder.request e ty a = .message iov ∨ NBBlackadder.request e ty a = .message iov

def EmitsData (e : Env) (d : DataArgs) (iov : List Bytes) : Prop :=
  Blackadder.publishData e d = .message iov ∨ NBBlackadder.publishData e d = .message iov

theorem Emits.accepted {e : Env} {ty : RequestType} {a : Args} {iov : List Bytes}
    (h : Emits e ty a iov) : Accepted ty a := by
  by_contra hn
  rcases h with h | h
  · rw [request_blocking] at h
    obtain ⟨text, ht⟩ := ladder_rejected hn Blackadder.library ty.name
      (Blackadder.createAndSendBuffers e ty.code a)
    rw [ht] at h
    cases h
  · rw [request_nb] at h
    obtain ⟨text, ht⟩ := ladder_rejected hn NBBlackadder.library ty.name
      (NBBlackadder.push e ty.code a)
    rw [ht] at h
    cases h

theorem Emits.flatten {e : Env} {ty : RequestType} {a : Args} {iov : List Bytes}
    (h : Emits e ty a iov) :
    iov.flatten = header a.total e.pid e.seq ++ (bodySegs ty.code a).flatten := by
  have hacc := h.accepted
  rcases h with h | h
  · rw [request_blocking, ladder_accepted hacc, createAndSendBuffers_eq] at h
    cases h
    rfl
  · rw [request_nb, ladder_accepted hacc, push_eq] at h
    split_ifs at h
    cases h
    exact List.append_nil _

theorem EmitsData.flatten {e : Env} {d : DataArgs} {iov : List Bytes} (h : EmitsData e d iov) :
    iov.flatten =
      header d.total e.pid e.seq ++ ((dataSegs d).flatten ++ d.data.bytes) := by
  rcases h with h | h
  · rw [publishData_blocking_eq] at h
    split_ifs at h
    cases h
    simp
  · rw [publishData_nb_eq] at h
    split_ifs at h
    cases h
    simp

theorem Accepted.sizes {ty : RequestType} {a : Args} (h : Accepted ty a) :
    8 ∣ a.id.length ∧ 8 ∣ a.prefixId.length := by
  have hid : Check.idSize ∈ ty.checks := by cases ty <;> decide
  have hpre : Check.prefixSize ∈ ty.checks := by cases ty <;> decide
  have h1 := h _ hid
  have h2 := h _ hpre
  simp only [Check.fails, pursuitIdLen, bne_eq_false_iff_eq] at h1 h2
  exact ⟨Nat.dvd_of_mod_eq_zero h1, Nat.dvd_of_mod_eq_zero h2⟩

theorem decode_emitted {e : Env} {ty : RequestType} {a : Args} {iov : List Bytes}
    (h : Emits e ty a iov) :
    decode iov.flatten = some ⟨iov.flatten.length, a.body ty⟩ ↔
      a.id.length / 8 < 256 ∧ a.prefixId.length / 8 < 256 ∧ a.total < 2 ^ 32 := by
  obtain ⟨hid, hpre⟩ := h.accepted.sizes
  rw [h.flatten, decode_message _ _ _ (length_bodySegs ty.code a), decodeBody_args]
  unfold Fits
  tauto

theorem decode_emitted_data {e : Env} {d : DataArgs} {iov : List Bytes}
    (h : EmitsData e d iov) :
    decode iov.flatten = some ⟨iov.flatten.length, d.body⟩ ↔
      8 ∣ d.id.length ∧ d.id.length / 8 < 256 ∧ d.total < 2 ^ 32 := by
  have hl : d.total = 16 + ((dataSegs d).flatten ++ d.data.bytes).length := by
    rw [List.length_append, ← Nat.add_assoc, ← length_dataSegs]
    rfl
  rw [h.flatten, decode_message _ _ _ hl, decodeBody_dataArgs]
  exact and_assoc

/-- after the header, requests that fit never look the same -/
theorem emitted_inj {e e' : Env} {ty ty' : RequestType} {a a' : Args} {iov iov' : List Bytes}
    (h : Emits e ty a iov) (h' : Emits e' ty' a' iov') (hf : Fits a.id ∧ Fits a.prefixId)
    (hf' : Fits a'.id ∧ Fits a'.prefixId)
    (heq : iov.flatten.drop 16 = iov'.flatten.drop 16) : a.body ty = a'.body ty' := by
  rw [h.flatten, h'.flatten, drop_header, drop_header] at heq
  have hb := (decodeBody_args ty a).mpr hf
  rw [heq, (decodeBody_args ty' a').mpr hf'] at hb
  exact (Option.some.inj hb).symm

/-- a message is emitted, and decodes to `body` with its own length in the header -/
def Describes (o : Outcome) (body : Body) : Prop :=
  ∃ iov, o = .message iov ∧ decode iov.flatten = some ⟨iov.flatten.length, body⟩

theorem describes_message {iov : List Bytes} {body : Body} :
    Describes (.message iov) body ↔ decode iov.flatten = some ⟨iov.flatten.length, body⟩ := by
  constructor
  · rintro ⟨_, ⟨⟩, h⟩
    exact h
  · exact fun h => ⟨iov, rfl, h⟩

theorem not_describes_undefined (body : Body) : ¬ Describes .undefined body := by
  rintro ⟨_, ⟨⟩, _⟩

theorem describes_blocking (e : Env) {ty : RequestType} {a : Args} (h : Accepted ty a) :
    Describes (Blackadder.request e ty a) (a.body ty) ↔
      a.id.length / 8 < 256 ∧ a.prefixId.length / 8 < 256 ∧ a.total < 2 ^ 32 := by
  have ho : Blackadder.request e ty a =
      .message (header a.total e.pid e.seq :: bodySegs ty.code a) := by
    rw [request_blocking, ladder_accepted h, createAndSendBuffers_eq]
  rw [ho, describes_message]
  exact decode_emitted (Or.inl ho)

/-- `buffer_length` is an `int`: from 2^31 on nothing is emitted -/
theorem describes_nb (e : Env) {ty : RequestType} {a : Args} (h : Accepted ty a) :
    Describes (NBBlackadder.request e ty a) (a.body ty) ↔
      a.id.length / 8 < 256 ∧ a.prefixId.length / 8 < 256 ∧ a.total < 2 ^ 31 := by
  have ho := (request_nb e ty a).trans ((ladder_accepted h _ _ _).trans (push_eq e ty.code a))
  by_cases ht : a.total < 2 ^ 31
  · rw [if_pos ht] at ho
    rw [ho, describes_message, decode_emitted (Or.inr ho)]
    exact and_congr_right fun _ => and_congr_right fun _ => ⟨fun _ => ht, fun _ => by omega⟩
  · rw [if_neg ht] at ho
    rw [ho]
    exact ⟨fun hd => absurd hd (not_describes_undefined _), fun hd => absurd hd.2.2 ht⟩

theorem describes_data_blocking (e : Env) {d : DataArgs} (h : 8 ∣ d.id.length) :
    Describes (Blackadder.publishData e d) d.body ↔
      d.id.length / 8 < 256 ∧ d.total < 2 ^ 32 := by
  have ho := publishData_blocking_eq e d
  rw [if_pos h] at ho
  rw [ho, describes_message, decode_emitted_data (Or.inl ho)]
  exact and_iff_right h

theorem describes_data_nb (e : Env) (d : DataArgs) :
    Describes (NBBlackadder.publishData e d) d.body ↔
      8 ∣ d.id.length ∧ d.id.length / 8 < 256 ∧ d.headTotal < 2 ^ 31 ∧ d.total < 2 ^ 32 := by
  have ho := publishData_nb_eq e d
  by_cases ht : d.headTotal < 2 ^ 31
  · rw [if_pos ht] at ho
    rw [ho, describes_message, decode_emitted_data (Or.inr ho)]
    exact and_congr_right fun _ => and_congr_right fun _ => (and_iff_right ht).symm
  · rw [if_neg ht] at ho
    rw [ho]
    exact ⟨fun hd => absurd hd (not_describes_undefined _), fun hd => absurd hd.2.2.1 ht⟩

/-- **An accepted request describes itself** exactly when the numbers of fragments fit their count
bytes and the message its header, and on the non-blocking library the buffer the `int`; for
`publish_data` the identifier must also have whole fragments, which the non-blocking library does
not check.  And two scope or item requests whose fragments fit differ after the header. -/
theorem framing_exact (e e' : Env) :
    (∀ ty a, Accepted ty a →
      (Describes (Blackadder.request e ty a) (a.body ty) ↔
        a.id.length / 8 < 256 ∧ a.prefixId.length / 8 < 256 ∧ a.total < 2 ^ 32) ∧
      (Describes (NBBlackadder.request e ty a) (a.body ty) ↔
        a.id.length / 8 < 256 ∧ a.prefixId.length / 8 < 256 ∧ a.total < 2 ^ 31)) ∧
    (∀ d : DataArgs, 8 ∣ d.id.length →
      (Describes (Blackadder.publishData e d) d.body ↔
        d.id.length / 8 < 256 ∧ d.total < 2 ^ 32)) ∧
    (∀ d : DataArgs, Describes (NBBlackadder.publishData e d) d.body ↔
      8 ∣ d.id.length ∧ d.id.length / 8 < 256 ∧ d.headTotal < 2 ^ 31 ∧ d.total < 2 ^ 32) ∧
    (∀ ty ty' a a' iov iov', Emits e ty a iov → Emits e' ty' a' iov' →
      (a.id.length / 8 < 256 ∧ a.prefixId.length / 8 < 256) →
      (a'.id.length / 8 < 256 ∧ a'.prefixId.length / 8 < 256) →
      iov.flatten.drop 16 = iov'.flatten.drop 16 → a.body ty = a'.body ty') := by
  refine ⟨fun ty a h => ⟨describes_blocking e h, describes_nb e h⟩,
    fun d h => describes_data_blocking e h, describes_data_nb e, ?_⟩
  intro ty ty' a a' iov iov' h h' hf hf' heq
  obtain ⟨hid, hpre⟩ := h.accepted.sizes
  obtain ⟨hid', hpre'⟩ := h'.accepted.sizes
  exact emitted_inj h h' ⟨⟨hid, hf.1⟩, ⟨hpre, hf.2⟩⟩ ⟨⟨hid', hf'.1⟩, ⟨hpre', hf'.2⟩⟩ heq

/-- a root scope to publish, the same without options, and data under its identifier -/
def rootArgs : Args := ⟨[1, 2, 3, 4, 5, 6, 7, 8], [], 0, some shortBlock⟩
def bareArgs : Args := ⟨[1, 2, 3, 4, 5, 6, 7, 8], [], 0, none⟩
def rootData : DataArgs := ⟨[1, 2, 3, 4, 5, 6, 7, 8], 0, none, shortBlock⟩

theorem framing_exact_root :
    Describes (Blackadder.request ⟨1, fun _ => 9⟩ .publishScope rootArgs)
      (rootArgs.body .publishScope) ∧
    Describes (NBBlackadder.request ⟨1, fun _ => 9⟩ .publishScope rootArgs)
      (rootArgs.body .publishScope) ∧
    Describes (Blackadder.publishData ⟨1, fun _ => 9⟩ rootData) rootData.body ∧
    Describes (NBBlackadder.publishData ⟨1, fun _ => 9⟩ rootData) rootData.body ∧
    ∃ iov iov', Blackadder.request ⟨1, fun _ => 9⟩ .publishScope rootArgs = .message iov ∧
      NBBlackadder.request ⟨1, fun _ => 9⟩ .publishScope bareArgs = .message iov' ∧
      iov.flatten.drop 16 ≠ iov'.flatten.drop 16 := by
  obtain ⟨hrequest, hdata, hdata', hdiffer⟩ := framing_exact ⟨1, fun _ => 9⟩ ⟨1, fun _ => 9⟩
  refine ⟨(hrequest .publishScope rootArgs (by decide)).1.mpr (by decide),
    (hrequest .publishScope rootArgs (by decide)).2.mpr (by decide),
    (hdata rootData (by decide)).mpr (by decide), (hdata' rootData).mpr (by decide), ?_⟩
  obtain ⟨iov, hiov, _⟩ := (hrequest .publishScope rootArgs (by decide)).1.mpr (by decide)
  obtain ⟨iov', hiov', _⟩ := (hrequest .publishScope bareArgs (by decide)).2.mpr (by decide)
  refine ⟨iov, iov', hiov, hiov', fun heq => ?_⟩
  have hbody := hdiffer _ _ _ _ _ _ (Or.inl hiov) (Or.inr hiov') (by decide) (by decide) heq
  exact absurd (congrArg Body.rest hbody) (by decide)

def zeros (n : Nat) : Bytes := List.replicate n 0

theorem length_zeros (n : Nat) : (zeros n).length = n := List.length_replicate

theorem zeros_append (m n : Nat) : zeros m ++ zeros n = zeros (m + n) :=
  List.replicate_append_replicate

theorem cons_zeros (n : Nat) : 0 :: zeros n = zeros (n + 1) := rfl

/-- publishing a root scope of `n` zero bytes, with `m` zero bytes of options -/
def zeroArgs (n m : Nat) (hm : m < 2 ^ 32) : Args :=
  ⟨zeros n, [], 0, some ⟨zeros m, by rwa [length_zeros]⟩⟩

theorem accepted_zero {n m : Nat} (hm : m < 2 ^ 32) (h8 : n % 8 = 0) (h0 : n ≠ 0) :
    Accepted .publishScope (zeroArgs n m hm) := by
  intro c hc
  cases c <;>
    simp_all [RequestType.checks, Check.fails, zeroArgs, length_zeros, pursuitIdLen]

theorem emits_zero (e : Env) {n m : Nat} (hm : m < 2 ^ 32) (h8 : n % 8 = 0) (h0 : n ≠ 0) :
    Emits e .publishScope (zeroArgs n m hm)
      (header (zeroArgs n m hm).total e.pid e.seq :: bodySegs 0 (zeroArgs n m hm)) := by
  left
  rw [request_blocking, ladder_accepted (accepted_zero hm h8 h0), createAndSendBuffers_eq]
  rfl

/-- where the count byte is zero, all the bytes after the header are -/
theorem flatten_zero {n m : Nat} (hm : m < 2 ^ 32) (h : n / 8 % 256 = 0) :
    (bodySegs 0 (zeroArgs n m hm)).flatten = zeros (n + m + 4) := by
  have hn : UInt8.ofNat ((zeros n).length / pursuitIdLen) = 0 := by
    rw [length_zeros]
    exact UInt8.toNat_inj.mp (UInt8.toNat_ofNat'.trans h)
  have hopt : optBytes (zeroArgs n m hm).strOpt = zeros m := by
    simp [optBytes, segment, zeroArgs]
  have hpre : UInt8.ofNat ((zeroArgs n m hm).prefixId.length / pursuitIdLen) = 0 := by
    simp [zeroArgs]
  rw [flatten_bodySegs, hopt, hpre]
  show 0 :: UInt8.ofNat ((zeros n).length / pursuitIdLen) :: (zeros n ++ 0 :: 0 :: zeros m) = _
  rw [hn, cons_zeros, cons_zeros, zeros_append, cons_zeros, cons_zeros]
  congr 1

/-- With 256 fragments the count byte is zero: neither library's message gives the identifier back,
and two different requests look the same after the header.  An identifier of five bytes is not
given back either. -/
theorem framing_truncates :
    (¬ ∀ ty a, Accepted ty a →
      Describes (Blackadder.request ⟨1, fun _ => 0⟩ ty a) (a.body ty)) ∧
    (¬ ∀ ty a, Accepted ty a →
      Describes (NBBlackadder.request ⟨1, fun _ => 0⟩ ty a) (a.body ty)) ∧
    (¬ ∀ ty ty' a a' iov iov', Emits ⟨1, fun _ => 0⟩ ty a iov →
      Emits ⟨1, fun _ => 0⟩ ty' a' iov' → iov.flatten.drop 16 = iov'.flatten.drop 16 →
      a.body ty = a'.body ty') ∧
    (¬ ∀ d : DataArgs, Describes (NBBlackadder.publishData ⟨1, fun _ => 0⟩ d) d.body) := by
  have hacc : Accepted .publishScope (zeroArgs 2048 2048 (by norm_num)) :=
    accepted_zero _ (by norm_num) (by norm_num)
  have hlen : (zeroArgs 2048 2048 (by norm_num)).id.length = 2048 := length_zeros 2048
  have hlong := emits_zero ⟨1, fun _ => 0⟩ (n := 2048) (m := 2048) (by norm_num) (by norm_num)
    (by norm_num)
  have hlonger := emits_zero ⟨1, fun _ => 0⟩ (n := 4096) (m := 0) (by norm_num) (by norm_num)
    (by norm_num)
  refine ⟨fun h => ?_, fun h => ?_, fun h => ?_, fun h => ?_⟩
  · have hfit := ((describes_blocking _ hacc).mp (h _ _ hacc)).1
    omega
  · have hfit := ((describes_nb _ hacc).mp (h _ _ hacc)).1
    omega
  · have hsame : (bodySegs 0 (zeroArgs 2048 2048 (by norm_num))).flatten =
        (bodySegs 0 (zeroArgs 4096 0 (by norm_num))).flatten := by
      rw [flatten_zero _ (by norm_num), flatten_zero _ (by norm_num)]
    have hbody := h _ _ _ _ _ _ hlong hlonger (by
      rw [List.flatten_cons, List.flatten_cons, hsame, drop_header, drop_header])
    have hid := congrArg (fun b => b.id.length) hbody
    have hid' : (zeros 2048).length = (zeros 4096).length := hid
    rw [length_zeros, length_zeros] at hid'
    omega
  · have hdvd := ((describes_data_nb _ _).mp (h ⟨[1, 2, 3, 4, 5], 0, none, shortBlock⟩)).1
    exact absurd hdvd (by decide)

end BA
