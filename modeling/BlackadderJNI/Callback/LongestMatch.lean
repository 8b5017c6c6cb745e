import BlackadderJNI.Callback.TreeOps
import BlackadderJNI.Lib.Replay

/-!
# What a history of calls leaves in the tree, and what `searchPrefix` finds

* `hashBindings k ops`   the reference map by hash path: the last call on a path wins;
* `bindings ops`         the reference map by key;
* `after_canonical`      the tree after a history is canonical for its `hashBindings`, hence
                         (`after_form`) determined by them;
* `searchPrefix_hash`    at the level of hash paths, `searchPrefix` is a longest match exactly
                         when the path of the argument is covered;
* `searchPrefix_exact`   when it is the longest match for the keys themselves;
* `searchPrefix_longest` what this comes to when the hashes tell the keys on the branch of the
                         argument apart.
-/

namespace BA
open Prefix Replay

namespace LPMTree
variable {V : Type}

def hashBindings (k : Nat) (ops : List (Op V)) : List Int32 → Option V :=
  replay (fun o : Op V => hashPath k o.rid) Op.binding ops

def bindings (ops : List (Op V)) : Bytes → Option V := replay Op.rid Op.binding ops

theorem after_canonical (k : Nat) (ops : List (Op V)) :
    Canonical (after k ops) (hashBindings k ops) := by
  induction ops using List.reverseRecOn with
  | nil => exact Canonical.new
  | append_singleton ops o ih =>
    rw [after_snoc]
    unfold hashBindings
    rw [replay_snoc]
    cases o with
    | add rid value => exact ih.add k rid value
    | delete rid => exact ih.delete k rid

/-- the tree seen from outside: at each hash path, whether there is a node and its value -/
def view (t : LPMTree V) (p : List Int32) : Option (Option V) :=
  (t.nodeAt p).map fun a => (t.heap.deref a).value

theorem view_of_canonical {t t' : LPMTree V} {M : List Int32 → Option V} (h : Canonical t M)
    (h' : Canonical t' M) (p : List Int32) : t.view p = t'.view p := by
  unfold view
  cases ha : t.nodeAt p with
  | none =>
    cases hb : t'.nodeAt p with
    | none => rfl
    | some b => exact absurd (h'.of_nodeAt hb) (h.absent ha)
  | some a =>
    cases hb : t'.nodeAt p with
    | none => exact absurd (h.of_nodeAt ha) (h'.absent hb)
    | some b =>
      show some (t.heap.deref a).value = some (t'.heap.deref b).value
      rw [h.value_eq p a ha, h'.value_eq p b hb]

theorem isValid_of_canonical {t : LPMTree V} {M : List Int32 → Option V} (h : Canonical t M)
    {p : List Int32} {a : Addr} (hp : p ≠ []) (ha : t.nodeAt p = some a) :
    (t.heap.deref a).isValid = true := by
  have hpend : Pending M t p none := by
    refine Shape.congr h (fun q => ⟨Or.inl, fun hh => hh.elim id fun hq => ?_⟩) fun _ => rfl
    exact (h.of_nodeAt ha).anti hq
  exact (hpend.isValid_iff hp ha).mpr (h.of_nodeAt ha)

/-- **The tree after a history.**  A node exists exactly at the root and at the prefixes of the
bound hash paths, and holds the reference value; so there are no dead nodes, the bindings
determine the tree, a `delete` of an absent path changes nothing, and `searchPrefix` returns the
value of the deepest node on the path. -/
theorem after_form (k : Nat) (ops : List (Op V)) :
    (∀ p, (after k ops).nodeAt p ≠ none ↔
      p = [] ∨ ∃ q, hashBindings k ops q ≠ none ∧ p <+: q) ∧
    (∀ p a, (after k ops).nodeAt p = some a →
      ((after k ops).heap.deref a).value = hashBindings k ops p) ∧
    (∀ p a, p ≠ [] → (after k ops).nodeAt p = some a →
      ((after k ops).heap.deref a).isValid = true) ∧
    (∀ ops' : List (Op V), hashBindings k ops' = hashBindings k ops →
      ∀ p, (after k ops').view p = (after k ops).view p) ∧
    (∀ rid, (after k ops).nodeAt (hashPath k rid) = none →
      (after k ops).delete k rid = (after k ops, false)) ∧
    (∀ rid, ∃ n a, IsDeepest (fun p => (after k ops).nodeAt p ≠ none) (hashPath k rid) n ∧
      (after k ops).nodeAt ((hashPath k rid).take n) = some a ∧
      (after k ops).searchPrefix k rid = ((after k ops).heap.deref a).value) := by
  have h := after_canonical k ops
  refine ⟨h.exists_iff, h.value_eq, fun p a => isValid_of_canonical h, ?_, ?_, ?_⟩
  · intro ops' e
    have h' := after_canonical k ops'
    rw [e] at h'
    exact view_of_canonical h' h
  · exact fun rid hp => delete_absent hp
  · intro rid
    obtain ⟨n, hn, hs⟩ := h.search k rid
    obtain ⟨a, ha⟩ := Option.ne_none_iff_exists'.mp hn.2.1
    exact ⟨n, a, hn, ha, hs.trans (h.value_eq _ a ha).symm⟩

theorem searchPrefix_hash (k : Nat) (ops : List (Op V)) (rid : Bytes) :
    IsLongestMatch (hashBindings k ops) (hashPath k rid) ((after k ops).searchPrefix k rid) ↔
      Covered (fun _ => True) (hashBindings k ops) (hashPath k rid) := by
  have h := after_canonical k ops
  obtain ⟨n, hn, hs⟩ := h.search k rid
  rw [hs]
  exact longest_iff_covered _ _ n (hn.congr h.exists_iff)

/-- off the covered paths `searchPrefix` stops at a node without a value -/
theorem searchPrefix_uncovered {k : Nat} {ops : List (Op V)} {rid : Bytes}
    (hc : ¬ Covered (fun _ => True) (hashBindings k ops) (hashPath k rid)) :
    (after k ops).searchPrefix k rid = none := by
  rw [← searchPrefix_hash] at hc
  have h := after_canonical k ops
  obtain ⟨n, hn, hs⟩ := h.search k rid
  rw [hs] at hc ⊢
  cases hv : hashBindings k ops ((hashPath k rid).take n) with
  | none => rfl
  | some v =>
    rw [hv] at hc
    exact absurd (longest_of_some (hn.congr h.exists_iff) hv) hc

/-- the longest bound hash path on that of `rid` has the value of the longest bound prefix
of `rid` -/
def HashesAgree (k : Nat) (ops : List (Op V)) (rid : Bytes) : Prop :=
  ∀ r, IsLongestMatch (hashBindings k ops) (hashPath k rid) r ↔ IsLongestMatch (bindings ops) rid r

/-- **When `searchPrefix` is a longest match.**  Either the path of `rid` is covered and the
hashes do not change the longest match; or it is not covered, and there is nothing to find. -/
theorem searchPrefix_exact (k : Nat) (ops : List (Op V)) (rid : Bytes) :
    IsLongestMatch (bindings ops) rid ((after k ops).searchPrefix k rid) ↔
      (Covered (fun _ => True) (hashBindings k ops) (hashPath k rid) ∧ HashesAgree k ops rid) ∨
      (¬ Covered (fun _ => True) (hashBindings k ops) (hashPath k rid) ∧
        ∀ key, key <+: rid → bindings ops key = none) := by
  by_cases hc : Covered (fun _ => True) (hashBindings k ops) (hashPath k rid)
  · have hhash := (searchPrefix_hash k ops rid).mpr hc
    constructor
    · intro h
      refine Or.inl ⟨hc, fun r => ⟨fun hr => ?_, fun hr => ?_⟩⟩
      · exact hhash.unique hr ▸ h
      · exact h.unique hr ▸ hhash
    · rintro (⟨_, hagree⟩ | ⟨hno, _⟩)
      · exact (hagree _).mp hhash
      · exact absurd hc hno
  · rw [searchPrefix_uncovered hc]
    exact ⟨fun h => Or.inr ⟨hc, h⟩, fun h => h.elim (fun h => absurd h.1 hc) And.right⟩

/-- the identifiers of the test in `main`: a scope, a scope below it, two items below that -/
def rootScope : Bytes := [0x00, 0x00, 0x00, 0x00, 0x00, 0x00, 0x00, 0x00]
def voiceScope : Bytes := rootScope ++ [0x22, 0x22, 0x22, 0x22, 0x22, 0x22, 0x22, 0x22]
def streamItem : Bytes := voiceScope ++ [0x12, 0x31, 0x23, 0x87, 0x14, 0x98, 0x71, 0x23]
def unknownItem : Bytes := voiceScope ++ [0x87, 0x61, 0x28, 0x73, 0x61, 0x87, 0x62, 0x87]

/-- With the root scope and the stream item bound, the node of the voice scope has no value and
hides the root scope; and a key that was never bound is found through a colliding one. -/
theorem searchPrefix_not_longest :
    ¬ IsLongestMatch (bindings [.add rootScope 1, .add streamItem 2]) unknownItem
        ((after 8 [.add rootScope 1, .add streamItem 2]).searchPrefix 8 unknownItem) ∧
    ¬ IsLongestMatch (bindings [.add [0, 31, 0, 0, 0, 0, 0, 0] 1]) [1, 0, 0, 0, 0, 0, 0, 0]
        ((after 8 [.add [0, 31, 0, 0, 0, 0, 0, 0] 1]).searchPrefix 8 [1, 0, 0, 0, 0, 0, 0, 0]) := by
  have h1 : (after 8 [.add rootScope 1, .add streamItem 2]).searchPrefix 8 unknownItem = none := by
    decide
  have h2 : (after 8 [.add [0, 31, 0, 0, 0, 0, 0, 0] 1]).searchPrefix 8 [1, 0, 0, 0, 0, 0, 0, 0]
      = some 1 := by decide
  rw [h1, h2]
  constructor
  · intro h
    have hroot := h rootScope (by decide)
    exact absurd hroot (by decide)
  · rintro ⟨key, hkey, hpre, _⟩
    obtain ⟨o, ho, hk, _⟩ := replay_some Op.rid Op.binding hkey
    rw [List.mem_singleton] at ho
    rw [← hk, ho] at hpre
    exact absurd hpre (by decide)

/-! ## from hash paths to keys -/

theorem hashPath_take (k : Nat) (hk : 0 < k) (l : Bytes) (j : Nat) (hj : j ≤ l.length / k) :
    hashPath k (l.take (j * k)) = (hashPath k l).take j := by
  unfold hashPath
  rw [← List.map_take]
  exact congrArg (List.map arraysHashCode) (chunks_take k hk l j hj)

theorem length_hashPath (k : Nat) (l : Bytes) : (hashPath k l).length = l.length / k :=
  (List.length_map _).trans (length_chunks k l)

/-- on the branch of `rid` the hashes tell the keys apart: a key of the history whose hash path
begins as that of `rid` begins as `rid` itself, and no other key has its hash path -/
def CollisionFree (k : Nat) (ops : List (Op V)) (rid : Bytes) : Prop :=
  ∀ p ∈ alignedPrefixes k rid, p ≠ [] → ∀ o ∈ ops, hashPath k p <+: hashPath k o.rid →
    p <+: o.rid ∧ ∀ o' ∈ ops, hashPath k o'.rid = hashPath k o.rid → o'.rid = o.rid

instance (k : Nat) (ops : List (Op V)) (rid : Bytes) : Decidable (CollisionFree k ops rid) :=
  inferInstanceAs (Decidable (∀ p ∈ alignedPrefixes k rid, p ≠ [] → ∀ o ∈ ops,
    hashPath k p <+: hashPath k o.rid →
    p <+: o.rid ∧ ∀ o' ∈ ops, hashPath k o'.rid = hashPath k o.rid → o'.rid = o.rid))

/-- a prefix of a hash path is the hash path of a chunk-aligned prefix -/
theorem exists_hashPath (k : Nat) (hk : 0 < k) (l : Bytes) {u : List Int32}
    (hu : u <+: hashPath k l) : ∃ p, k ∣ p.length ∧ p <+: l ∧ hashPath k p = u := by
  have hlen : u.length ≤ l.length / k := by
    rw [← length_hashPath]
    exact hu.length_le
  have hle : u.length * k ≤ l.length := (Nat.le_div_iff_mul_le hk).mp hlen
  refine ⟨l.take (u.length * k), ?_, List.take_prefix _ _, ?_⟩
  · rw [List.length_take, Nat.min_eq_left hle]
    exact Nat.dvd_mul_left k _
  · rw [hashPath_take k hk l _ hlen]
    exact (prefix_eq_take hu).symm

theorem hashPath_mono (k : Nat) (hk : 0 < k) {p l : Bytes} (hd : k ∣ p.length)
    (hp : p <+: l) : hashPath k p <+: hashPath k l := by
  obtain ⟨j, hj⟩ := hd
  have hle : j ≤ l.length / k := by
    rw [Nat.le_div_iff_mul_le hk, Nat.mul_comm, ← hj]
    exact hp.length_le
  rw [prefix_eq_take hp, hj, Nat.mul_comm, hashPath_take k hk l j hle]
  exact List.take_prefix _ _

theorem length_of_aligned (k : Nat) {p : Bytes} (hd : k ∣ p.length) :
    (hashPath k p).length * k = p.length := by
  rw [length_hashPath]
  exact Nat.div_mul_cancel hd

theorem collisionFree_coding (k : Nat) (hk : 0 < k) (ops : List (Op V))
    (hkeys : ∀ o ∈ ops, k ∣ o.rid.length) (rid : Bytes) (hfree : CollisionFree k ops rid) :
    Coding (hashPath k) (fun p => k ∣ p.length) (bindings ops) (hashBindings k ops) rid := by
  have hlen : ∀ p q : Bytes, k ∣ p.length → k ∣ q.length →
      (hashPath k p).length ≤ (hashPath k q).length → p.length ≤ q.length := by
    intro p q hp hq hle
    rw [← length_of_aligned k hp, ← length_of_aligned k hq]
    exact Nat.mul_le_mul_right k hle
  have hnil : ∀ p : Bytes, k ∣ p.length → (hashPath k p = [] ↔ p = []) := by
    intro p hd
    refine ⟨fun h => List.length_eq_zero_iff.mp ?_, fun h => ?_⟩
    · rw [← length_of_aligned k hd, h]
      exact Nat.zero_mul k
    · rw [h]
      exact List.length_eq_zero_iff.mp ((length_hashPath k []).trans (Nat.zero_div k))
  have hfree' : ∀ p, p ≠ [] → k ∣ p.length → p <+: rid → ∀ o ∈ ops,
      hashPath k p <+: hashPath k o.rid → p <+: o.rid ∧
        ∀ o' ∈ ops, hashPath k o'.rid = hashPath k o.rid → o'.rid = o.rid := fun p hne hd hp =>
    hfree p ((mem_alignedPrefixes k hk rid p).mpr ⟨hp, hd⟩) hne
  refine ⟨fun p hd _ => hnil p hd, ?_, fun p hd hp => hashPath_mono k hk hd hp,
    fun u hu => exists_hashPath k hk rid hu, ?_, ?_, ?_⟩
  · intro p hp
    obtain ⟨o, ho, rfl⟩ := replay_ne_none _ _ hp
    exact hkeys o ho
  · intro p q hp hq hpl hql
    exact ⟨fun h => List.prefix_of_prefix_length_le hpl hql (hlen p q hp hq h.length_le),
      hashPath_mono k hk hp⟩
  · intro p hd hp
    refine replay_comp Op.rid Op.binding (hashPath k) ops p fun o ho e => ?_
    by_cases hne : p = []
    · rw [hne] at e ⊢
      exact (hnil _ (hkeys o ho)).mp (e.trans ((hnil [] (by simp)).mpr rfl))
    · have hpre := (hfree' p hne hd hp o ho (e ▸ List.prefix_refl _)).1
      exact (hpre.eq_of_length_le (hlen _ _ (hkeys o ho) hd (by rw [e]))).symm
  · intro p hne hd hp
    -- below a nonempty prefix of `rid` a hash path belongs to one key
    have hsame : ∀ o ∈ ops, hashPath k p <+: hashPath k o.rid →
        hashBindings k ops (hashPath k o.rid) = bindings ops o.rid := fun o ho hpre =>
      replay_comp Op.rid Op.binding (hashPath k) ops o.rid
        (hfree' p hne hd hp o ho hpre).2
    constructor
    · rintro ⟨key, hkey, hpk⟩
      obtain ⟨o, ho, rfl⟩ := replay_ne_none _ _ hkey
      have hpre := hashPath_mono k hk hd hpk
      exact ⟨_, (hsame o ho hpre).symm ▸ hkey, hpre⟩
    · rintro ⟨u, hu, hpre⟩
      obtain ⟨o, ho, rfl⟩ := replay_ne_none _ _ hu
      exact ⟨o.rid, hsame o ho hpre ▸ hu, (hfree' p hne hd hp o ho hpre).1⟩

theorem hashesAgree_of_collisionFree (k : Nat) (hk : 0 < k) (ops : List (Op V))
    (hkeys : ∀ o ∈ ops, k ∣ o.rid.length) (rid : Bytes) (hfree : CollisionFree k ops rid) :
    HashesAgree k ops rid := fun r =>
  ((collisionFree_coding k hk ops hkeys rid hfree).longest_iff r).symm

/-- Where the hashes tell the keys on the branch of `rid` apart, `searchPrefix` answers with the
longest bound prefix if and only if no bound key leaves `rid` below that prefix. -/
theorem searchPrefix_longest (k : Nat) (hk : 0 < k) (ops : List (Op V))
    (hkeys : ∀ o ∈ ops, k ∣ o.rid.length) (rid : Bytes) (hfree : CollisionFree k ops rid) :
    IsLongestMatch (bindings ops) rid ((after k ops).searchPrefix k rid) ↔
      Covered (fun p => k ∣ p.length) (bindings ops) rid := by
  have hagree := hashesAgree_of_collisionFree k hk ops hkeys rid hfree
  have hcode := collisionFree_coding k hk ops hkeys rid hfree
  rw [← hagree, hcode.covered_iff]
  exact searchPrefix_hash k ops rid

end LPMTree

end BA
