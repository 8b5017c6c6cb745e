import BlackadderJNI.Callback.LongestMatch

/-!
# What `delete` reports

* `DeleteReports`         `delete` says whether the key was bound, and without a binding leaves
                          the tree alone;
* `OnPath`                the hash path of the key is the root or begins a bound hash path;
* `deleteReports_iff`     `delete` reports right exactly when these say the same of the key;
* `answers_keys`          what `searchPrefix` and `delete` answer when the hashes tell the keys
                          apart: the unbound keys above a bound one are the wrong answers.
-/

namespace BA
open Prefix Replay

namespace LPMTree
variable {V : Type}

structure DeleteReports (k : Nat) (ops : List (Op V)) (rid : Bytes) : Prop where
  bound_iff : ((after k ops).delete k rid).2 = true ↔ bindings ops rid ≠ none
  unchanged : ((after k ops).delete k rid).2 = false →
    ((after k ops).delete k rid).1 = after k ops

def OnPath (k : Nat) (ops : List (Op V)) (rid : Bytes) : Prop :=
  hashPath k rid = [] ∨ Reaches (hashBindings k ops) (hashPath k rid)

/-- `delete` returns whether it found the path -/
theorem delete_true_iff (k : Nat) (ops : List (Op V)) (rid : Bytes) :
    ((after k ops).delete k rid).2 = true ↔ OnPath k ops rid := by
  have hcanon := after_canonical k ops
  have hnode : (after k ops).nodeAt (hashPath k rid) ≠ none ↔ OnPath k ops rid :=
    hcanon.exists_iff (hashPath k rid)
  rw [← hnode]
  by_cases hp : (after k ops).nodeAt (hashPath k rid) = none
  · rw [delete_absent hp]
    exact ⟨fun h => (Bool.false_ne_true h).elim, fun h => absurd hp h⟩
  · exact ⟨fun _ => hp, fun _ => (hcanon.delete_present hp).2⟩

theorem delete_false_unchanged (k : Nat) (ops : List (Op V)) (rid : Bytes)
    (h : ((after k ops).delete k rid).2 = false) :
    ((after k ops).delete k rid).1 = after k ops := by
  by_cases hp : (after k ops).nodeAt (hashPath k rid) = none
  · rw [delete_absent hp]
  · rw [((after_canonical k ops).delete_present hp).2] at h
    cases h

/-- **When `delete` reports right.**  After every history and for every key, `delete` returns
true exactly for a bound key, and false only without a change, if and only if the key is bound
exactly when its hash path is empty or begins a bound hash path. -/
theorem deleteReports_iff (k : Nat) (ops : List (Op V)) (rid : Bytes) :
    DeleteReports k ops rid ↔ (bindings ops rid ≠ none ↔ OnPath k ops rid) := by
  constructor
  · intro h
    exact h.bound_iff.symm.trans (delete_true_iff k ops rid)
  · intro h
    exact ⟨(delete_true_iff k ops rid).trans h.symm, delete_false_unchanged k ops rid⟩

/-- With the voice scope bound alone, `delete` says of the root scope above it that it was
registered, and on an empty tree of the empty key; and after a key was deleted under another one
of the same hash, it says of the first, which is bound, that it was not. -/
theorem delete_misreports :
    ¬ DeleteReports 8 [.add voiceScope 1] rootScope ∧
    ¬ DeleteReports 8 ([] : List (Op Nat)) [] ∧
    ¬ DeleteReports 8 [.add [0, 31, 0, 0, 0, 0, 0, 0] 1, .delete [1, 0, 0, 0, 0, 0, 0, 0]]
        [0, 31, 0, 0, 0, 0, 0, 0] := by
  refine ⟨fun h => ?_, fun h => ?_, fun h => ?_⟩
  · exact h.bound_iff.mp (by decide) (by decide)
  · exact h.bound_iff.mp (by decide) rfl
  · exact absurd (h.bound_iff.mpr (by decide)) (by decide)

/-! ## the answers by key -/

/-- where the hashes tell the keys apart, the keys on a path are the empty one and the beginnings
of the bound ones -/
theorem onPath_keys {k : Nat} (hk : 0 < k) {ops : List (Op V)}
    (hkeys : ∀ o ∈ ops, k ∣ o.rid.length) {rid : Bytes} (hrid : k ∣ rid.length)
    (hfree : CollisionFree k ops rid) :
    OnPath k ops rid ↔ rid = [] ∨ Reaches (bindings ops) rid := by
  have hcode := collisionFree_coding k hk ops hkeys rid hfree
  unfold OnPath
  rw [hcode.nil_iff rid hrid (List.prefix_refl rid)]
  by_cases hne : rid = []
  · simp [hne]
  · rw [hcode.reach_iff rid hne hrid (List.prefix_refl rid)]

theorem deleteReports_keys {k : Nat} (hk : 0 < k) {ops : List (Op V)}
    (hkeys : ∀ o ∈ ops, k ∣ o.rid.length) {rid : Bytes} (hrid : k ∣ rid.length)
    (hfree : CollisionFree k ops rid) :
    DeleteReports k ops rid ↔
      bindings ops rid ≠ none ∨ (rid ≠ [] ∧ ¬ Reaches (bindings ops) rid) := by
  rw [deleteReports_iff, onPath_keys hk hkeys hrid hfree]
  constructor
  · intro h
    by_cases hb : bindings ops rid = none
    · have hno : ¬ (rid = [] ∨ Reaches (bindings ops) rid) := fun ho => h.mpr ho hb
      exact Or.inr ⟨fun he => hno (Or.inl he), fun hr => hno (Or.inr hr)⟩
    · exact Or.inl hb
  · rintro (hb | ⟨hne, hr⟩)
    · exact ⟨fun _ => Or.inr (Reaches.of_bound hb), fun _ => hb⟩
    · exact ⟨fun hb => absurd (Reaches.of_bound hb) hr, fun ho => absurd ho (by simp [hne, hr])⟩

/-- **The tree by keys.**  Where the hashes tell the keys on the branch of `rid` apart,
`searchPrefix` finds the longest bound prefix if and only if no bound key leaves `rid` below it;
`delete` returns true for the empty key and for the beginnings of the bound keys, and reports
right for a bound key and for a key that is neither. -/
theorem answers_keys (k : Nat) (hk : 0 < k) (ops : List (Op V))
    (hkeys : ∀ o ∈ ops, k ∣ o.rid.length) (rid : Bytes) (hfree : CollisionFree k ops rid) :
    (IsLongestMatch (bindings ops) rid ((after k ops).searchPrefix k rid) ↔
      Covered (fun p => k ∣ p.length) (bindings ops) rid) ∧
    (k ∣ rid.length →
      (((after k ops).delete k rid).2 = true ↔ rid = [] ∨ Reaches (bindings ops) rid) ∧
      (DeleteReports k ops rid ↔
        bindings ops rid ≠ none ∨ (rid ≠ [] ∧ ¬ Reaches (bindings ops) rid))) :=
  ⟨searchPrefix_longest k hk ops hkeys rid hfree, fun hrid =>
    ⟨(delete_true_iff k ops rid).trans (onPath_keys hk hkeys hrid hfree),
      deleteReports_keys hk hkeys hrid hfree⟩⟩

/-- With the three scopes of the test bound, the unknown item finds the voice scope. -/
theorem answers_keys_unknownItem :
    IsLongestMatch
      (bindings [Op.add rootScope 1, Op.add voiceScope 2, Op.add streamItem 3]) unknownItem
      ((after 8 [Op.add rootScope 1, Op.add voiceScope 2, Op.add streamItem 3]).searchPrefix 8
        unknownItem) ∧
    DeleteReports 8 [Op.add rootScope 1, Op.add voiceScope 2, Op.add streamItem 3]
      unknownItem := by
  have hall := answers_keys 8 (by decide)
    [Op.add rootScope 1, Op.add voiceScope 2, Op.add streamItem 3] (by decide) unknownItem
    (by decide)
  have hreach : ¬ Reaches
      (bindings [Op.add rootScope 1, Op.add voiceScope 2, Op.add streamItem 3]) unknownItem := by
    rintro ⟨key, hkey, hpre⟩
    obtain ⟨o, ho, rfl⟩ := replay_ne_none _ _ hkey
    revert o
    decide
  have habove : ∀ p ∈ alignedPrefixes 8 unknownItem, p <+: voiceScope ∨ p = unknownItem := by
    decide
  refine ⟨hall.1.mpr fun _ p _ hd hp hr => ?_, (hall.2 (by decide)).2.mpr ?_⟩
  · have hmem := (mem_alignedPrefixes 8 (by decide) unknownItem p).mpr ⟨hp, hd⟩
    rcases habove p hmem with hv | rfl
    · exact ⟨voiceScope, by decide, hv, by decide⟩
    · exact absurd hr hreach
  · exact Or.inr ⟨by decide, hreach⟩

end LPMTree
end BA
