import BlackadderJNI.Wrapper.Receive

/-!
# Reading the payload of an event

The readers of `BAEvent` share the position of one buffer.

* `withPayload`        an event as the receive paths build it, with its payload;
* `Read`, `afterReads`  a sequence of calls of the readers, those that throw included;
* `Intact payload e`   what later reads of `e` have to see;
* `At e payload p`     the buffer of `e` holds the payload and stands at `p`; `At.read` says
                       where a call leaves it;
* `afterReads_intact_iff`   reading goes wrong exactly after a `getData` that threw behind its
                       `position(offset)`, as long as no later call sets the position.
-/

namespace BA
namespace Wrapper

def withPayload (base : BA.BAEvent) (payload : Bytes) (mapping : Option Mapping) : BAEvent :=
  ⟨base, some (.ofBytes payload), payload.length, mapping, false⟩

theorem construct_withPayload (type : Int8) (id payload : Bytes) (w : EventManagement)
    (eventPtr : Addr) :
    (construct type id (some (.ofBytes payload))).setNativeMemoryMappings (some w) eventPtr =
      .ok (withPayload ⟨BAEventType.getById type.toInt, id⟩ payload (some ⟨w, eventPtr⟩)) := rfl

/-! ## sequences of reads -/

inductive Read where
  | getData (offset length : Int)
  | getDataCopy
  | getByte (pos : Int)
  | writeTo (buff : Option Target)

def Read.method : Read → Method
  | .getData offset length => .getData offset length
  | .getDataCopy => .getDataCopy
  | .getByte pos => .getByte pos
  | .writeTo buff => .writeTo buff

def afterReads (e : BAEvent) (reads : List Read) : BAEvent :=
  reads.foldl (fun e r => (invoke e r.method).event) e

/-- every reader hands out what it should of the payload -/
structure Intact (payload : Bytes) (e : BAEvent) : Prop where
  copy : e.getDataCopy.1 = .ok payload
  range : ∀ o l : Nat, o + l ≤ payload.length →
    (e.getData o l).1 = .ok ((payload.drop o).take l)
  write : ∀ t : Target, t.readOnly = false → payload.length ≤ t.remaining →
    (e.writeTo (some t)).1 = .ok payload

/-- a `getData` that gets past `position(offset)`, to an offset other than 0, and then asks for
more of the `n` bytes than are left -/
def Overruns (n : Nat) (offset length : Int) : Prop :=
  0 < offset ∧ offset ≤ n ∧ n < offset + length

/-- a call that sets the position, when the buffer of `n` bytes stands at `p` -/
def Read.Repositions (n : Nat) (p : Int) : Read → Prop
  | .getData offset length => 0 ≤ length ∧ 0 ≤ offset ∧ offset ≤ n
  | .getDataCopy => True
  | .getByte _ => False
  | .writeTo none => False
  | .writeTo (some t) => t.readOnly = false ∧ n ≤ p + t.remaining

instance (n : Nat) (p : Int) : ∀ r : Read, Decidable (r.Repositions n p)
  | .getData offset length => inferInstanceAs (Decidable (0 ≤ length ∧ 0 ≤ offset ∧ offset ≤ n))
  | .getDataCopy => isTrue trivial
  | .getByte _ => isFalse id
  | .writeTo none => isFalse id
  | .writeTo (some t) => inferInstanceAs (Decidable (t.readOnly = false ∧ n ≤ p + t.remaining))

/-- some call overran, and none behind it set the position again -/
def Displaced (n : Nat) (reads : List Read) : Prop :=
  ∃ pre offset length post, reads = pre ++ .getData offset length :: post ∧
    Overruns n offset length ∧ ∀ r ∈ post, ¬ r.Repositions n offset

/-! ## the position -/

structure At (e : BAEvent) (payload : Bytes) (p : Nat) : Prop where
  freed : e.freed = false
  data : ∃ b : ByteBuffer, e.data = some b ∧ b.bytes = payload ∧ b.pos = p
  dataLength : e.dataLength = payload.length

/-- where a call leaves the position -/
def Read.move (n p : Nat) : Read → Nat
  | .getData offset length =>
    if 0 ≤ length ∧ 0 ≤ offset ∧ offset ≤ n then
      if offset + length ≤ n then 0 else offset.toNat
    else p
  | .getDataCopy => 0
  | .getByte _ => p
  | .writeTo none => p
  | .writeTo (some t) => if t.readOnly = false ∧ n ≤ p + t.remaining then 0 else p

theorem move_getData (n p : Nat) (offset length : Int) :
    Read.move n p (.getData offset length) =
      if 0 ≤ length ∧ 0 ≤ offset ∧ offset ≤ n then
        if offset + length ≤ n then 0 else offset.toNat
      else p := rfl

theorem move_writeTo (n p : Nat) (t : Target) :
    Read.move n p (.writeTo (some t)) =
      if t.readOnly = false ∧ n ≤ p + t.remaining then 0 else p := rfl

/-- where a sequence of calls leaves it -/
def standing (n p : Nat) (reads : List Read) : Nat := reads.foldl (Read.move n) p

theorem standing_snoc (n p : Nat) (reads : List Read) (r : Read) :
    standing n p (reads ++ [r]) = r.move n (standing n p reads) :=
  List.foldl_concat ..

section
variable {e : BAEvent} {payload : Bytes} {p : Nat}

theorem At.le (h : At e payload p) : p ≤ payload.length := by
  obtain ⟨b, _, hb, hp⟩ := h.data
  rw [← hb, ← hp]
  exact b.pos_le

theorem At.withPayload (base : BA.BAEvent) (payload : Bytes) (mapping : Option Mapping) :
    At (withPayload base payload mapping) payload 0 :=
  ⟨rfl, ⟨.ofBytes payload, rfl, rfl, rfl⟩, rfl⟩

theorem At.setData (h : At e payload p) {b : ByteBuffer} (hb : b.bytes = payload) :
    At { e with data := some b } payload b.pos := ⟨h.freed, ⟨b, rfl, hb, rfl⟩, h.dataLength⟩

/-- `getData` by cases, for any arguments -/
theorem At.getData (h : At e payload p) (offset length : Int) :
    At (e.getData offset length).2 payload (Read.move payload.length p (.getData offset length)) ∧
      (0 ≤ length ∧ 0 ≤ offset ∧ offset + length ≤ payload.length →
        (e.getData offset length).1 =
          .ok ((payload.drop offset.toNat).take length.toNat)) := by
  obtain ⟨b, hdata, hb, hp⟩ := h.data
  subst hb
  unfold BAEvent.getData
  rw [move_getData, if_neg (by simp [h.freed])]
  by_cases hlen : length < 0
  · rw [if_pos hlen, if_neg (fun hc => by omega)]
    exact ⟨h, fun hc => absurd hc.1 (by omega)⟩
  rw [if_neg hlen, hdata]
  by_cases hoff : 0 ≤ offset ∧ offset.toNat ≤ b.bytes.length
  · have hpos : b.position offset = .ok ⟨b.bytes, offset.toNat, hoff.2⟩ := dif_pos hoff
    rw [if_pos ⟨by omega, by omega, by omega⟩]
    dsimp only
    rw [hpos]
    dsimp only
    by_cases hfit : length.toNat ≤ b.bytes.length - offset.toNat
    · have hget : (⟨b.bytes, offset.toNat, hoff.2⟩ : ByteBuffer).get length.toNat =
          .ok ((b.bytes.drop offset.toNat).take length.toNat) := if_pos hfit
      rw [hget, if_pos (by omega)]
      exact ⟨h.setData rfl, fun _ => rfl⟩
    · have hget : (⟨b.bytes, offset.toNat, hoff.2⟩ : ByteBuffer).get length.toNat =
          .error .bufferUnderflow := if_neg hfit
      rw [hget, if_neg (by omega)]
      exact ⟨h.setData rfl, fun hc => absurd hc.2.2 (by omega)⟩
  · have hpos : b.position offset = .error .illegalArgument := dif_neg hoff
    rw [if_neg (fun hc => hoff ⟨hc.2.1, by omega⟩)]
    dsimp only
    rw [hpos]
    exact ⟨h, fun hc => absurd ⟨hc.2.1, by omega⟩ hoff⟩

theorem At.getDataCopy_eq (h : At e payload p) :
    e.getDataCopy = e.getData 0 payload.length := by
  unfold BAEvent.getDataCopy
  rw [if_neg (by simp [h.freed]), h.dataLength]

theorem At.writeTo (h : At e payload p) (t : Target) :
    At (e.writeTo (some t)).2 payload (Read.move payload.length p (.writeTo (some t))) ∧
      (t.readOnly = false → payload.length ≤ p + t.remaining →
        (e.writeTo (some t)).1 = .ok (payload.drop p)) := by
  obtain ⟨b, hdata, hb, hp⟩ := h.data
  subst hb hp
  have hle := b.pos_le
  unfold BAEvent.writeTo
  rw [move_writeTo, if_neg (by simp [h.freed]), hdata]
  dsimp only
  by_cases hro : t.readOnly = false
  · by_cases hroom : t.remaining < b.bytes.length - b.pos
    · have hput : t.put (some b) = .error .bufferOverflow := by
        unfold Target.put
        rw [if_neg (by simp [hro])]
        exact if_pos hroom
      rw [hput, if_neg (fun hc => by omega)]
      exact ⟨h, fun _ hc => absurd hc (by omega)⟩
    · have hput : t.put (some b) = .ok (b.bytes.drop b.pos) := by
        unfold Target.put
        rw [if_neg (by simp [hro])]
        exact if_neg hroom
      rw [hput, if_pos ⟨hro, by omega⟩]
      exact ⟨h.setData rfl, fun _ _ => rfl⟩
  · have hput : t.put (some b) = .error .readOnlyBuffer := if_pos (by simpa using hro)
    rw [hput, if_neg (fun hc => hro hc.1)]
    exact ⟨h, fun hc => absurd hc hro⟩

/-- **One call**: the payload stays, and the position is moved. -/
theorem At.read (h : At e payload p) (r : Read) :
    At (invoke e r.method).event payload (r.move payload.length p) := by
  cases r with
  | getData offset length => exact (h.getData offset length).1
  | getDataCopy =>
    show At e.getDataCopy.2 payload 0
    rw [h.getDataCopy_eq]
    have hmove := (h.getData 0 payload.length).1
    simpa [Read.move] using hmove
  | getByte pos => exact h
  | writeTo buff =>
    cases buff with
    | none =>
      show At (e.writeTo none).2 payload p
      unfold BAEvent.writeTo
      rw [if_neg (by simp [h.freed])]
      exact h
    | some t => exact (h.writeTo t).1

theorem At.reads (h : At e payload p) (reads : List Read) :
    At (afterReads e reads) payload (standing payload.length p reads) := by
  induction reads generalizing e p with
  | nil => exact h
  | cons r reads ih => exact ih (h.read r)

/-- the readers see the payload exactly when the buffer stands at its beginning -/
theorem At.intact_iff_zero (h : At e payload p) : Intact payload e ↔ p = 0 := by
  constructor
  · intro hi
    have hwrite := (h.writeTo ⟨payload.length, false⟩).2 rfl (Nat.le_add_left _ _)
    rw [hi.write ⟨payload.length, false⟩ rfl le_rfl] at hwrite
    have hlen := congrArg List.length (Except.ok.inj hwrite)
    rw [List.length_drop] at hlen
    have hle := h.le
    omega
  · rintro rfl
    refine ⟨?_, fun o l hol => ?_, fun t hro hroom => ?_⟩
    · rw [h.getDataCopy_eq, (h.getData 0 payload.length).2 (by omega)]
      simp
    · rw [(h.getData o l).2 (by omega)]
      rfl
    · exact (h.writeTo t).2 hro (by omega)

end

/-! ## which sequences displace the position -/

theorem move_of_not_repositions {n p : Nat} {r : Read} (h : ¬ r.Repositions n p) :
    r.move n p = p := by
  cases r with
  | getData offset length => exact if_neg h
  | getDataCopy => exact absurd trivial h
  | getByte pos => rfl
  | writeTo buff =>
    cases buff with
    | none => rfl
    | some t => exact if_neg fun hc => h ⟨hc.1, by omega⟩

/-- a call that sets the position leaves it at 0, or overruns -/
theorem move_of_repositions {n p : Nat} {r : Read} (h : r.Repositions n p) :
    r.move n p = 0 ∨ ∃ offset length, r = .getData offset length ∧ Overruns n offset length ∧
      (r.move n p : Int) = offset := by
  cases r with
  | getData offset length =>
    obtain ⟨hl, ho, hn⟩ : 0 ≤ length ∧ 0 ≤ offset ∧ offset ≤ n := h
    rw [move_getData, if_pos ⟨hl, ho, hn⟩]
    by_cases hfit : offset + length ≤ n
    · exact Or.inl (if_pos hfit)
    · rw [if_neg hfit]
      by_cases hz : offset = 0
      · exact Or.inl (by omega)
      · exact Or.inr ⟨offset, length, rfl, ⟨by omega, hn, by omega⟩, by omega⟩
  | getDataCopy => exact Or.inl rfl
  | getByte pos => exact h.elim
  | writeTo buff =>
    cases buff with
    | none => exact h.elim
    | some t => exact Or.inl (if_pos ⟨h.1, by have := h.2; omega⟩)

theorem move_overruns {n p : Nat} {offset length : Int} (h : Overruns n offset length) :
    (Read.move n p (.getData offset length) : Int) = offset := by
  obtain ⟨ho, hn, hl⟩ := h
  rw [move_getData, if_pos ⟨by omega, by omega, hn⟩, if_neg (by omega)]
  omega

/-- an overrun that nothing set right fixes the position at its offset -/
theorem standing_fixed {n p : Nat} {post : List Read} (h : ∀ r ∈ post, ¬ r.Repositions n p) :
    standing n p post = p := by
  induction post with
  | nil => rfl
  | cons r post ih =>
    show standing n (r.move n p) post = p
    rw [move_of_not_repositions (h r List.mem_cons_self)]
    exact ih fun r' hr' => h r' (List.mem_cons_of_mem r hr')

/-- away from 0, the position is the offset of the last call that set it, and that overran -/
theorem standing_last (n : Nat) (reads : List Read) (h : standing n 0 reads ≠ 0) :
    ∃ pre offset length post, reads = pre ++ .getData offset length :: post ∧
      Overruns n offset length ∧ (standing n 0 reads : Int) = offset ∧
      ∀ r ∈ post, ¬ r.Repositions n offset := by
  induction reads using List.reverseRecOn with
  | nil => exact absurd rfl h
  | append_singleton reads r ih =>
    rw [standing_snoc] at h ⊢
    by_cases hr : r.Repositions n (standing n 0 reads)
    · rcases move_of_repositions hr with h0 | ⟨offset, length, rfl, hover, hpos⟩
      · exact absurd h0 h
      · exact ⟨reads, offset, length, [], rfl, hover, hpos, nofun⟩
    · have hsame := move_of_not_repositions hr
      rw [hsame] at h ⊢
      obtain ⟨pre, offset, length, post, heq, hover, hpos, hpost⟩ := ih h
      refine ⟨pre, offset, length, post ++ [r], by rw [heq]; simp, hover, hpos, fun q hq => ?_⟩
      rcases List.mem_append.mp hq with hq | hq
      · exact hpost q hq
      · rw [List.mem_singleton.mp hq, ← hpos]
        exact hr

theorem standing_iff (n : Nat) (reads : List Read) :
    standing n 0 reads ≠ 0 ↔ Displaced n reads := by
  constructor
  · intro h
    obtain ⟨pre, offset, length, post, heq, hover, _, hpost⟩ := standing_last n reads h
    exact ⟨pre, offset, length, post, heq, hover, hpost⟩
  · rintro ⟨pre, offset, length, post, rfl, hover, hpost⟩
    have hpos := move_overruns (p := standing n 0 pre) hover
    have happ : standing n 0 (pre ++ .getData offset length :: post) =
        standing n (Read.move n (standing n 0 pre) (.getData offset length)) post := by
      unfold standing
      rw [List.foldl_append]
      rfl
    rw [happ, standing_fixed (by rw [hpos]; exact hpost)]
    intro h0
    rw [h0] at hpos
    exact absurd hover.1 (by omega)

/-- **When reading leaves an event as it was.**  For every payload and every sequence of reads,
those that throw included, the later reads see the whole payload exactly when no `getData` of the
sequence overran without a later call setting the position. -/
theorem afterReads_intact_iff (base : BA.BAEvent) (payload : Bytes) (mapping : Option Mapping)
    (reads : List Read) :
    Intact payload (afterReads (withPayload base payload mapping) reads) ↔
      ¬ Displaced payload.length reads := by
  rw [((At.withPayload base payload mapping).reads reads).intact_iff_zero, ← standing_iff, not_not]

/-- two bytes from offset 1 of a payload of two bytes: the call throws, and a `writeTo` behind it
transfers the second byte alone -/
theorem overrun_displaces :
    ¬ ∀ (base : BA.BAEvent) (payload : Bytes) (mapping : Option Mapping) (reads : List Read),
      Intact payload (afterReads (withPayload base payload mapping) reads) := by
  intro h
  have hi := h ⟨some .publishedData, [1, 2, 3, 4, 5, 6, 7, 8]⟩ [7, 9] none [.getData 1 2]
  exact absurd (hi.write ⟨2, false⟩ rfl le_rfl) (by decide)

end Wrapper
end BA
