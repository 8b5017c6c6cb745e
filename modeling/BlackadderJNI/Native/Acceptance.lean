import BlackadderJNI.Native.Encoding

/-!
# Which identifiers the requests accept

The documentation of the request methods (`blackadder.hpp`) against their sixteen ladders of
checks.

* `Documented ty a`     the identifiers that the documentation of the request allows;
* `documented_iff`      they are those that pass the checks, and where `id` is not empty;
* `EmptyItem ty a`      the corner that the repeated check of `publish_info` lets through;
* `grammar_iff`         when a method of either library emits exactly the documented requests.
-/

namespace BA

/-- the four requests about an information item -/
def RequestType.isInfo : RequestType → Bool
  | .publishInfo | .unpublishInfo | .subscribeInfo | .unsubscribeInfo => true
  | _ => false

def RequestType.isPublish : RequestType → Bool
  | .publishScope | .publishInfo => true
  | _ => false

structure Documented (ty : RequestType) (a : Args) : Prop where
  id_size : pursuitIdLen ∣ a.id.length
  prefix_size : pursuitIdLen ∣ a.prefixId.length
  id_nonempty : a.id ≠ []
  /-- `prefix_id` cannot be empty, but for a scope, which is then a root scope -/
  father : ty.isInfo = true → a.prefixId ≠ []
  /-- only a republication names its object by several fragments -/
  fragment : ty.isPublish = false → a.id.length = pursuitIdLen

/-- `publish_info` of an empty `id` under an existing scope -/
def EmptyItem (ty : RequestType) (a : Args) : Prop :=
  ty = .publishInfo ∧ a.id = [] ∧ a.prefixId ≠ [] ∧ pursuitIdLen ∣ a.prefixId.length

/-- the method emits a message exactly for the documented identifiers, and otherwise prints and
hands nothing over -/
structure Grammar (ty : RequestType) (a : Args) (o : Outcome) : Prop where
  emits_iff : (∃ iov, o = .message iov) ↔ Documented ty a
  silent : (¬ ∃ iov, o = .message iov) → ∃ text, o = .printed text

/-! ## the checks -/

section
variable (a : Args)

@[simp] theorem idSize_passes : Check.fails a .idSize = false ↔ pursuitIdLen ∣ a.id.length := by
  simp [Check.fails, Nat.dvd_iff_mod_eq_zero]

@[simp] theorem prefixSize_passes :
    Check.fails a .prefixSize = false ↔ pursuitIdLen ∣ a.prefixId.length := by
  simp [Check.fails, Nat.dvd_iff_mod_eq_zero]

@[simp] theorem idEmpty_passes : Check.fails a .idEmpty = false ↔ a.id ≠ [] := by
  simp [Check.fails]

@[simp] theorem prefixEmpty_passes : Check.fails a .prefixEmpty = false ↔ a.prefixId ≠ [] := by
  simp [Check.fails]

@[simp] theorem idFragments_passes :
    Check.fails a .idFragments = false ↔ a.id.length / pursuitIdLen ≤ 1 := by
  simp [Check.fails]

end

/-- what the checks of a request come to: the test of `id` for emptiness is missing from
`publish_info`, the others are as documented -/
theorem accepted_iff (ty : RequestType) (a : Args) :
    Accepted ty a ↔ pursuitIdLen ∣ a.id.length ∧ pursuitIdLen ∣ a.prefixId.length ∧
      (ty ≠ .publishInfo → a.id ≠ []) ∧ (ty.isInfo = true → a.prefixId ≠ []) ∧
      (ty.isPublish = false → a.id.length / pursuitIdLen ≤ 1) := by
  unfold Accepted
  cases ty <;> simp [RequestType.checks, RequestType.isInfo, RequestType.isPublish]

/-- a nonempty identifier of at most one fragment has exactly one -/
theorem single_fragment {n : Nat} (hd : pursuitIdLen ∣ n) (hpos : 0 < n) :
    n / pursuitIdLen ≤ 1 ↔ n = pursuitIdLen := by
  obtain ⟨q, rfl⟩ := hd
  have h8 : 0 < pursuitIdLen := by decide
  rw [Nat.mul_div_cancel_left q h8]
  have hq : 0 < q := Nat.pos_of_mul_pos_left hpos
  constructor
  · intro h
    rw [show q = 1 by omega, Nat.mul_one]
  · intro h
    exact (Nat.le_of_mul_le_mul_left (by omega : pursuitIdLen * q ≤ pursuitIdLen * 1) h8)

theorem documented_iff (ty : RequestType) (a : Args) :
    Documented ty a ↔ Accepted ty a ∧ a.id ≠ [] := by
  rw [accepted_iff]
  constructor
  · intro h
    have hpos := List.length_pos_of_ne_nil h.id_nonempty
    exact ⟨⟨h.id_size, h.prefix_size, fun _ => h.id_nonempty, h.father,
      fun hp => (single_fragment h.id_size hpos).mpr (h.fragment hp)⟩, h.id_nonempty⟩
  · rintro ⟨⟨hid, hpre, _, hfather, hone⟩, hne⟩
    have hpos := List.length_pos_of_ne_nil hne
    exact ⟨hid, hpre, hne, hfather, fun hp => (single_fragment hid hpos).mp (hone hp)⟩

/-- what passes the checks undocumented is the empty item -/
theorem emptyItem_iff (ty : RequestType) (a : Args) :
    EmptyItem ty a ↔ Accepted ty a ∧ a.id = [] := by
  rw [accepted_iff]
  constructor
  · rintro ⟨rfl, hid, hpre, hsize⟩
    exact ⟨⟨by simp [hid], hsize, fun h => absurd rfl h, fun _ => hpre, nofun⟩, hid⟩
  · rintro ⟨⟨_, hsize, hne, hfather, _⟩, hid⟩
    have hty : ty = .publishInfo := by
      by_contra h
      exact hne h hid
    subst hty
    exact ⟨rfl, hid, hfather rfl, hsize⟩

/-! ## what is emitted -/

theorem grammar_rejected {ty : RequestType} {a : Args} (h : ¬ Accepted ty a)
    (library request : String) (send : Outcome) :
    Grammar ty a (ladder library request ty.checks a send) := by
  obtain ⟨text, e⟩ := ladder_rejected h library request send
  have hno : ¬ ∃ iov, ladder library request ty.checks a send = .message iov := by
    rintro ⟨iov, hm⟩
    rw [e] at hm
    cases hm
  exact ⟨⟨fun hm => absurd hm hno, fun hd => absurd ((documented_iff ty a).mp hd).1 h⟩,
    fun _ => ⟨text, e⟩⟩

theorem grammar_message {ty : RequestType} {a : Args} (h : Accepted ty a) (iov : List Bytes) :
    Grammar ty a (.message iov) ↔ ¬ EmptyItem ty a := by
  rw [emptyItem_iff]
  constructor
  · intro hg hc
    exact ((documented_iff ty a).mp (hg.emits_iff.mp ⟨iov, rfl⟩)).2 hc.2
  · intro hc
    have hd := (documented_iff ty a).mpr ⟨h, fun hid => hc ⟨h, hid⟩⟩
    exact ⟨⟨fun _ => hd, fun _ => ⟨iov, rfl⟩⟩, fun hno => absurd ⟨iov, rfl⟩ hno⟩

theorem not_grammar_undefined (ty : RequestType) (a : Args) : ¬ Grammar ty a .undefined := by
  intro hg
  obtain ⟨text, e⟩ := hg.silent (by rintro ⟨iov, hm⟩; cases hm)
  cases e

/-- **When a request method accepts exactly the documented identifiers**: not for `publish_info`
of an empty identifier under a scope, where the library tests `prefix_id` twice; and on the
non-blocking library a documented request must be shorter than 2^31 bytes as well. -/
theorem grammar_iff (e : Env) :
    (∀ (ty : RequestType) (a : Args),
      Grammar ty a (Blackadder.request e ty a) ↔ ¬ EmptyItem ty a) ∧
    (∀ (ty : RequestType) (a : Args),
      Grammar ty a (NBBlackadder.request e ty a) ↔
        ¬ EmptyItem ty a ∧ (Documented ty a → a.total < 2 ^ 31)) := by
  have hrej : ∀ {ty : RequestType} {a : Args}, ¬ Accepted ty a →
      ¬ EmptyItem ty a ∧ ¬ Documented ty a := fun h =>
    ⟨fun hc => h ((emptyItem_iff _ _).mp hc).1, fun hd => h ((documented_iff _ _).mp hd).1⟩
  constructor
  · intro ty a
    rw [request_blocking]
    by_cases h : Accepted ty a
    · rw [ladder_accepted h, createAndSendBuffers_eq]
      exact grammar_message h _
    · exact ⟨fun _ => (hrej h).1, fun _ => grammar_rejected h _ _ _⟩
  · intro ty a
    rw [request_nb]
    by_cases h : Accepted ty a
    · rw [ladder_accepted h, push_eq]
      by_cases ht : a.total < 2 ^ 31
      · rw [if_pos ht, grammar_message h]
        exact ⟨fun hc => ⟨hc, fun _ => ht⟩, And.left⟩
      · rw [if_neg ht]
        refine ⟨fun hg => absurd hg (not_grammar_undefined ty a), fun hc => ?_⟩
        have hd : Documented ty a :=
          (documented_iff ty a).mpr ⟨h, fun hid => hc.1 ((emptyItem_iff ty a).mpr ⟨h, hid⟩)⟩
        exact absurd (hc.2 hd) ht
    · exact ⟨fun _ => ⟨(hrej h).1, fun hd => absurd hd (hrej h).2⟩,
        fun _ => grammar_rejected h _ _ _⟩

/-- an item without an identifier, under a scope of one fragment -/
def emptyItem : Args := ⟨[], [1, 1, 1, 1, 1, 1, 1, 1], 0, none⟩

/-- Both libraries emit it. -/
theorem emptyItem_emitted :
    (¬ ∀ (ty : RequestType) (a : Args),
      Grammar ty a (Blackadder.request ⟨1, fun _ => 0⟩ ty a)) ∧
    (¬ ∀ (ty : RequestType) (a : Args),
      Grammar ty a (NBBlackadder.request ⟨1, fun _ => 0⟩ ty a)) := by
  have hacc : Accepted .publishInfo emptyItem := by decide
  have hundoc : ¬ Documented .publishInfo emptyItem := fun hd => hd.id_nonempty rfl
  constructor
  · intro h
    have hg := h .publishInfo emptyItem
    rw [request_blocking, ladder_accepted hacc, createAndSendBuffers_eq] at hg
    exact hundoc (hg.emits_iff.mp ⟨_, rfl⟩)
  · intro h
    have hg := h .publishInfo emptyItem
    rw [request_nb, ladder_accepted hacc, push_eq, if_pos (by decide)] at hg
    exact hundoc (hg.emits_iff.mp ⟨_, rfl⟩)

end BA
