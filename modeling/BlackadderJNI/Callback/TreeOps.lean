import BlackadderJNI.Callback.TreeShape
import BlackadderJNI.Lib.Prefix

/-!
# The loops of `add`, `delete` and `searchPrefix`

`Canonical t M`: the nodes of `t` are the root and the paths that begin a bound path of the map
`M`, and each holds the value of `M` at its path.

* `addLoop_shape`      the walk of `add` adds the missing nodes of one path, without values;
* `deleteLoop_descent` the first loop of `delete` collects the nodes of the path;
* `pruneLoop_pending`  the second loop: in front of the node at `hs` the tree is canonical but
                       for the rest of the path and possibly one dead node just below;
* `searchLoop_spec`    the walk of `searchPrefix` stops at the deepest node;
* `Canonical.add`, `Canonical.delete`, `Canonical.search`   the three operations.
-/

namespace BA
open Prefix

section
variable {V : Type}

def Canon (M : List Int32 → Option V) (p : List Int32) : Prop := p = [] ∨ Reaches M p

def Canonical (t : LPMTree V) (M : List Int32 → Option V) : Prop := Shape t (Canon M) M

theorem Canon.anti {M : List Int32 → Option V} {p q : List Int32} (h : Canon M q) (hp : p <+: q) :
    Canon M p := by
  rcases h with rfl | h
  · exact Or.inl (List.prefix_nil.mp hp)
  · exact Or.inr (h.anti hp)

theorem Canon.of_bound {M : List Int32 → Option V} {p : List Int32} (h : M p ≠ none) : Canon M p :=
  Or.inr (Reaches.of_bound h)

theorem nodeAt_anti (t : LPMTree V) {p q : List Int32} (hp : p <+: q) (hq : t.nodeAt q ≠ none) :
    t.nodeAt p ≠ none := by
  obtain ⟨r, rfl⟩ := hp
  intro h
  apply hq
  show t.heap.walk t.root (p ++ r) = none
  rw [Heap.walk_append, show t.heap.walk t.root p = none from h]
  rfl

theorem Canonical.new : Canonical (LPMTree.new : LPMTree V) fun _ => none := by
  have hno : ∀ a c, (LPMTree.new : LPMTree V).heap.child? a c = none := by
    intro a c
    unfold Heap.child?
    cases a with
    | zero => rfl
    | succ a => rw [Heap.deref_ge _ (Nat.succ_le_succ (Nat.zero_le a))]; rfl
  have hcons : ∀ c p, (LPMTree.new : LPMTree V).nodeAt (c :: p) = none := by
    intro c p
    have h0 := LPMTree.nodeAt_nil (LPMTree.new : LPMTree V)
    have h1 : (LPMTree.new : LPMTree V).nodeAt [c] = none :=
      (LPMTree.nodeAt_child h0 c).trans (hno _ c)
    by_contra hne
    exact nodeAt_anti _ (show [c] <+: c :: p from ⟨p, rfl⟩) hne h1
  refine ⟨⟨rfl, Nat.zero_lt_one, ?_, ?_, ?_, ?_⟩, ?_, ?_⟩
  · intro a c b hb
    rw [hno] at hb
    cases hb
  · intro a c b hb
    rw [hno] at hb
    cases hb
  · intro a c a' c' b hb
    rw [hno] at hb
    cases hb
  · intro a c b hb
    rw [hno] at hb
    cases hb
  · intro p
    cases p with
    | nil => exact ⟨fun _ => Or.inl rfl, fun _ => Option.some_ne_none _⟩
    | cons c p =>
      refine ⟨fun h => absurd (hcons c p) h, ?_⟩
      rintro (h | ⟨_, hk, _⟩)
      · cases h
      · exact absurd rfl hk
  · intro p a ha
    cases p with
    | nil =>
      rw [← Option.some.inj ha]
      rfl
    | cons c p =>
      rw [hcons] at ha
      cases ha

/-! ## add -/

/-- the nodes of the path `p ++ hs` are there after the walk, new ones without a value -/
theorem addLoop_shape {t : LPMTree V} {E : List Int32 → Prop} {M : List Int32 → Option V}
    (h : Shape t E M) (hM : ∀ q, ¬ E q → M q = none) {p : List Int32} {cur : Addr}
    (hp : t.nodeAt p = some cur) (chunks : List Bytes) :
    Shape ⟨(LPMTree.addLoop t.heap cur chunks).1, t.root⟩
        (fun q => E q ∨ q <+: p ++ chunks.map arraysHashCode) M ∧
      LPMTree.nodeAt ⟨(LPMTree.addLoop t.heap cur chunks).1, t.root⟩
        (p ++ chunks.map arraysHashCode) = some (LPMTree.addLoop t.heap cur chunks).2 := by
  induction chunks generalizing t E p cur with
  | nil =>
    rw [List.map_nil, List.append_nil]
    refine ⟨h.congr (fun q => ⟨Or.inl, fun hq => hq.elim id fun hpre => ?_⟩) fun _ => rfl, hp⟩
    exact (h.exists_iff q).mp (nodeAt_anti t hpre (by rw [hp]; exact Option.some_ne_none cur))
  | cons chunk chunks ih =>
    have happ : p ++ (chunk :: chunks).map arraysHashCode
        = (p ++ [arraysHashCode chunk]) ++ chunks.map arraysHashCode := by simp
    have hstep : p ++ [arraysHashCode chunk]
        <+: (p ++ [arraysHashCode chunk]) ++ chunks.map arraysHashCode := List.prefix_append _ _
    rw [happ]
    cases hc : (t.heap.deref cur).getChild chunk with
    | some child =>
      rw [LPMTree.addLoop_child hc]
      exact ih h hM ((LPMTree.nodeAt_child hp _).trans hc)
    | none =>
      obtain ⟨hlink, hnode⟩ := h.link hp chunk hc
      have hnone : M (p ++ [arraysHashCode chunk]) = none :=
        hM _ (h.absent ((LPMTree.nodeAt_child hp _).trans hc))
      have hsame : Function.update M (p ++ [arraysHashCode chunk]) none = M := by
        rw [← hnone, Function.update_eq_self]
      rw [hsame] at hlink
      rw [LPMTree.addLoop_new hc]
      obtain ⟨h1, h2⟩ := ih hlink (fun q hq => hM q fun hE => hq (Or.inl hE)) hnode
      refine ⟨h1.congr (fun q => ⟨?_, ?_⟩) fun _ => rfl, h2⟩
      · rintro ((hE | rfl) | hpre)
        · exact Or.inl hE
        · exact Or.inr hstep
        · exact Or.inr hpre
      · rintro (hE | hpre)
        · exact Or.inl (Or.inl hE)
        · exact Or.inr hpre

theorem canon_update_some (M : List Int32 → Option V) (p q : List Int32) (v : V) :
    Canon (Function.update M p (some v)) q ↔ Canon M q ∨ q <+: p := by
  constructor
  · rintro (rfl | ⟨key, hk, hq⟩)
    · exact Or.inl (Or.inl rfl)
    · by_cases e : key = p
      · exact Or.inr (e ▸ hq)
      · rw [Function.update_of_ne e] at hk
        exact Or.inl (Or.inr ⟨key, hk, hq⟩)
  · rintro ((rfl | ⟨key, hk, hq⟩) | hq)
    · exact Or.inl rfl
    · refine Or.inr ⟨key, ?_, hq⟩
      by_cases e : key = p
      · rw [e, Function.update_self]
        exact Option.some_ne_none v
      · rwa [Function.update_of_ne e]
    · refine Or.inr ⟨p, ?_, hq⟩
      rw [Function.update_self]
      exact Option.some_ne_none v

theorem Canonical.unbound {t : LPMTree V} {M : List Int32 → Option V} (h : Canonical t M)
    {p : List Int32} (hp : t.nodeAt p = none) : M p = none := by
  by_contra hb
  exact h.absent hp (Canon.of_bound hb)

theorem Canonical.add {t : LPMTree V} {M : List Int32 → Option V} (h : Canonical t M) (k : Nat)
    (rid : Bytes) (v : V) :
    Canonical (t.add k rid v) (Function.update M (LPMTree.hashPath k rid) (some v)) := by
  have hM : ∀ q, ¬ Canon M q → M q = none := by
    intro q hq
    by_contra hb
    exact hq (Canon.of_bound hb)
  obtain ⟨h1, h2⟩ := addLoop_shape h hM t.nodeAt_nil (LPMTree.tokenize rid k)
  simp only [List.nil_append, ← LPMTree.hashPath_eq] at h1 h2
  exact (h1.setValue h2 (some v)).congr
    (fun q => (canon_update_some M (LPMTree.hashPath k rid) q v).symm) fun _ => rfl

/-! ## delete -/

/-- `xs` are the nodes of the nonempty prefixes of `hs`, the longest first -/
inductive Trail (t : LPMTree V) : List Int32 → List Addr → Prop
  | nil : Trail t [] []
  | snoc {hs : List Int32} {xs : List Addr} (c : Int32) {a : Addr} (h : Trail t hs xs)
      (ha : t.nodeAt (hs ++ [c]) = some a) : Trail t (hs ++ [c]) (a :: xs)

theorem Trail.congr {t t' : LPMTree V} {hs : List Int32} {xs : List Addr} (h : Trail t hs xs)
    (hn : ∀ q, q <+: hs → t'.nodeAt q = t.nodeAt q) : Trail t' hs xs := by
  induction h with
  | nil => exact Trail.nil
  | snoc c h ha ih =>
    refine Trail.snoc c (ih fun q hq => hn q (hq.trans (List.prefix_append _ _))) ?_
    rw [hn _ (List.prefix_refl _)]
    exact ha

/-- what the first loop finds on `path`, after the nodes `xs` above its start -/
def Descent (t : LPMTree V) (path : List Int32) (xs : List Addr) :
    Option (List Addr × Addr) → Prop
  | some r => Trail t path (r.1.reverse ++ xs) ∧ t.nodeAt path = some r.2
  | none => t.nodeAt path = none

theorem deleteLoop_descent {t : LPMTree V} {p : List Int32} {cur : Addr} {xs : List Addr}
    (hp : t.nodeAt p = some cur) (hxs : Trail t p xs) (chunks : List Bytes) :
    Descent t (p ++ chunks.map arraysHashCode) xs (LPMTree.deleteLoop t.heap cur chunks) := by
  induction chunks generalizing p cur xs with
  | nil =>
    rw [List.map_nil, List.append_nil]
    exact ⟨hxs, hp⟩
  | cons chunk chunks ih =>
    have happ : p ++ (chunk :: chunks).map arraysHashCode
        = (p ++ [arraysHashCode chunk]) ++ chunks.map arraysHashCode := by simp
    rw [happ]
    cases hc : (t.heap.deref cur).getChild chunk with
    | none =>
      rw [LPMTree.deleteLoop_stop hc]
      show t.nodeAt _ = none
      by_contra hne
      exact nodeAt_anti t (List.prefix_append _ _) hne ((LPMTree.nodeAt_child hp _).trans hc)
    | some child =>
      have hn : t.nodeAt (p ++ [arraysHashCode chunk]) = some child :=
        (LPMTree.nodeAt_child hp _).trans hc
      have ih' := ih hn (Trail.snoc _ hxs hn)
      rw [LPMTree.deleteLoop_child hc]
      cases hr : LPMTree.deleteLoop t.heap child chunks with
      | none =>
        rw [hr] at ih'
        exact ih'
      | some r =>
        rw [hr] at ih'
        refine ⟨?_, ih'.2⟩
        have e : (child :: r.1).reverse ++ xs = r.1.reverse ++ child :: xs := by simp
        show Trail t _ ((child :: r.1).reverse ++ xs)
        rw [e]
        exact ih'.1

/-- In front of the node at `hs`: `t` is canonical for `M` but for the prefixes of `hs`, and
`toBeRemoved` is the dead node just below `hs`, when there is one. -/
def Pending (M : List Int32 → Option V) (t : LPMTree V) (hs : List Int32) : Option Addr → Prop
  | none => Shape t (fun q => Canon M q ∨ q <+: hs) M
  | some y => ∃ d, Shape t (fun q => Canon M q ∨ q <+: hs ++ [d]) M ∧
      t.nodeAt (hs ++ [d]) = some y ∧ ¬ Canon M (hs ++ [d])

theorem prefix_snoc_iff (q hs : List Int32) (d : Int32) :
    q <+: hs ++ [d] ↔ q <+: hs ∨ q = hs ++ [d] := by
  rw [List.prefix_concat_iff, or_comm]

/-- unlinking the dead node below the node `a` of `hs`, when there is one -/
theorem Pending.unlink {M : List Int32 → Option V} {t : LPMTree V} {hs : List Int32}
    {toBeRemoved : Option Addr} (h : Pending M t hs toBeRemoved) {a : Addr}
    (ha : t.nodeAt hs = some a) :
    Pending M { t with heap := LPMTree.unlink t.heap a toBeRemoved } hs none ∧
      ∀ q, q <+: hs →
        LPMTree.nodeAt { t with heap := LPMTree.unlink t.heap a toBeRemoved } q = t.nodeAt q := by
  cases toBeRemoved with
  | none => exact ⟨h, fun _ _ => rfl⟩
  | some y =>
  obtain ⟨d, hshape, hy, hdead⟩ := h
  have hleaf : ∀ e, t.heap.child? y e = none := by
    intro e
    rw [← LPMTree.nodeAt_child hy]
    by_contra hne
    rcases (hshape.exists_iff _).mp hne with hc | hpre
    · exact hdead (hc.anti (List.prefix_append _ _))
    · have := hpre.length_le
      simp at this
  obtain ⟨h1, h2⟩ := hshape.unlink ha hy hleaf
  have hne : ∀ q, q <+: hs → q ≠ hs ++ [d] := by
    rintro q hq rfl
    have := hq.length_le
    simp at this
  refine ⟨h1.congr (fun q => ⟨?_, ?_⟩) fun _ => rfl, fun q hq => h2 q (hne q hq)⟩
  · rintro ⟨hc | hpre, hq⟩
    · exact Or.inl hc
    · exact Or.inr (((prefix_snoc_iff q hs d).mp hpre).resolve_right hq)
  · rintro (hc | hpre)
    · exact ⟨Or.inl hc, fun e => hdead (e ▸ hc)⟩
    · exact ⟨Or.inr ((prefix_snoc_iff q hs d).mpr (Or.inl hpre)), hne q hpre⟩

/-- the test `isValid` decides whether the node has to stay -/
theorem Pending.isValid_iff {M : List Int32 → Option V} {t : LPMTree V} {hs : List Int32}
    (h : Pending M t hs none) (hne : hs ≠ []) {a : Addr} (ha : t.nodeAt hs = some a) :
    (t.heap.deref a).isValid = true ↔ Canon M hs := by
  have hshape : Shape t (fun q => Canon M q ∨ q <+: hs) M := h
  have hvalue := hshape.value_eq hs a ha
  have hkid : ∀ c, (t.heap.child? a c ≠ none ↔ Canon M (hs ++ [c])) := by
    intro c
    rw [← LPMTree.nodeAt_child ha, hshape.exists_iff]
    refine ⟨fun hh => hh.elim id fun hpre => ?_, Or.inl⟩
    have := hpre.length_le
    simp at this
  unfold Node.isValid
  rw [Bool.or_eq_true, bne_iff_ne, hvalue]
  constructor
  · rintro (hlen | hv)
    · obtain ⟨c, hc⟩ := List.exists_mem_of_length_pos (Nat.pos_of_ne_zero hlen)
      have hkey : t.heap.child? a c ≠ none := by
        intro hnone
        exact AList.lookup_eq_none.mp hnone (AList.mem_keys.mpr hc)
      exact ((hkid c).mp hkey).anti (List.prefix_append _ _)
    · exact Canon.of_bound (Option.isSome_iff_ne_none.mp hv)
  · rintro (rfl | ⟨key, hk, r, rfl⟩)
    · exact absurd rfl hne
    · cases r with
      | nil =>
        rw [List.append_nil] at hk
        exact Or.inr (Option.isSome_iff_ne_none.mpr hk)
      | cons c r =>
        left
        have hc : Canon M (hs ++ [c]) :=
          Or.inr ⟨hs ++ c :: r, hk, ⟨r, by simp⟩⟩
        intro hlen
        have hkeys := List.length_eq_zero_iff.mp hlen
        refine (hkid c).mpr hc (AList.lookup_eq_none.mpr fun hm => ?_)
        rw [AList.mem_keys, hkeys] at hm
        cases hm

theorem pruneLoop_pending {M : List Int32 → Option V} {t : LPMTree V} {hs : List Int32}
    {xs : List Addr} {toBeRemoved : Option Addr} (hxs : Trail t hs xs)
    (h : Pending M t hs toBeRemoved) :
    Pending M ⟨(LPMTree.pruneLoop t.heap toBeRemoved xs).1, t.root⟩ []
      (LPMTree.pruneLoop t.heap toBeRemoved xs).2 := by
  induction xs generalizing t hs toBeRemoved with
  | nil =>
    cases hxs
    exact h
  | cons a xs ih =>
    obtain _ | ⟨c, hrest, ha⟩ := hxs
    rename_i hs
    -- after the removal the node `a` is the deepest one left on the path
    obtain ⟨hpend, hsame⟩ := h.unlink ha
    have ha' := (hsame _ (List.prefix_refl _)).trans ha
    have hrest' := hrest.congr fun q hq => hsame q (hq.trans (List.prefix_append _ _))
    have hvalid := hpend.isValid_iff (by simp) ha'
    refine ih hrest' ?_
    by_cases hv : ((LPMTree.unlink t.heap a toBeRemoved).deref a).isValid = true
    · rw [if_pos hv]
      refine Shape.congr hpend (fun q => ?_) fun _ => rfl
      rw [prefix_snoc_iff]
      refine ⟨fun hh => ?_, fun hh => hh.imp id Or.inl⟩
      rcases hh with hc | hpre | rfl
      · exact Or.inl hc
      · exact Or.inr hpre
      · exact Or.inl (hvalid.mp hv)
    · rw [if_neg hv]
      exact ⟨c, hpend, ha', fun hc => hv (hvalid.mpr hc)⟩

theorem canon_update_none {M : List Int32 → Option V} {p q : List Int32}
    (h : Canon (Function.update M p none) q) : Canon M q := by
  rcases h with rfl | ⟨key, hk, hq⟩
  · exact Or.inl rfl
  · have e : key ≠ p := by
      rintro rfl
      rw [Function.update_self] at hk
      exact hk rfl
    rw [Function.update_of_ne e] at hk
    exact Or.inr ⟨key, hk, hq⟩

theorem canon_of_update_none {M : List Int32 → Option V} {p q : List Int32} (h : Canon M q)
    (hq : ¬ q <+: p) : Canon (Function.update M p none) q := by
  rcases h with rfl | ⟨key, hk, hpre⟩
  · exact Or.inl rfl
  · have e : key ≠ p := fun e => hq (e ▸ hpre)
    refine Or.inr ⟨key, ?_, hpre⟩
    rwa [Function.update_of_ne e]

/-- a call of `delete` on a path that is not in the tree -/
theorem LPMTree.delete_absent {t : LPMTree V} {k : Nat} {rid : Bytes}
    (h : t.nodeAt (LPMTree.hashPath k rid) = none) : t.delete k rid = (t, false) := by
  have hd := deleteLoop_descent t.nodeAt_nil Trail.nil (LPMTree.tokenize rid k)
  rw [List.nil_append, ← LPMTree.hashPath_eq] at hd
  cases hr : LPMTree.deleteLoop t.heap t.root (LPMTree.tokenize rid k) with
  | none =>
    unfold LPMTree.delete
    rw [hr]
  | some r =>
    rw [hr] at hd
    have hsome : t.nodeAt (LPMTree.hashPath k rid) = some r.2 := hd.2
    rw [h] at hsome
    cases hsome

/-- a call of `delete` on a path of the tree -/
theorem Canonical.delete_present {t : LPMTree V} {M : List Int32 → Option V} (h : Canonical t M)
    {k : Nat} {rid : Bytes} (hp : t.nodeAt (LPMTree.hashPath k rid) ≠ none) :
    Canonical (t.delete k rid).1 (Function.update M (LPMTree.hashPath k rid) none) ∧
      (t.delete k rid).2 = true := by
  have hd := deleteLoop_descent t.nodeAt_nil Trail.nil (LPMTree.tokenize rid k)
  rw [List.nil_append, ← LPMTree.hashPath_eq] at hd
  cases hr : LPMTree.deleteLoop t.heap t.root (LPMTree.tokenize rid k) with
  | none =>
    rw [hr] at hd
    exact absurd hd hp
  | some r =>
    obtain ⟨checkRemove, last⟩ := r
    rw [hr] at hd
    obtain ⟨htrail, hlast⟩ := hd
    rw [List.append_nil] at htrail
    have hset := Shape.setValue h hlast none
    -- without the value of `rid` the tree is canonical but for the path of `rid`
    have hpend : Pending (Function.update M (LPMTree.hashPath k rid) none)
        { t with heap := t.heap.setValue last none } (LPMTree.hashPath k rid) none := by
      refine hset.congr (fun q => ⟨fun hc => ?_, fun hh => ?_⟩) fun _ => rfl
      · by_cases hq : q <+: LPMTree.hashPath k rid
        · exact Or.inr hq
        · exact Or.inl (canon_of_update_none hc hq)
      · rcases hh with hc | hq
        · exact canon_update_none hc
        · exact (h.of_nodeAt hlast).anti hq
    have hfin := pruneLoop_pending (htrail.congr fun q _ => nodeAt_setValue t last none q) hpend
    obtain ⟨h1, _⟩ := hfin.unlink (LPMTree.nodeAt_nil _)
    unfold LPMTree.delete
    rw [hr]
    refine ⟨Shape.congr h1 (fun q => ⟨fun hh => ?_, Or.inl⟩) fun _ => rfl, rfl⟩
    exact hh.elim id fun hq => Or.inl (List.prefix_nil.mp hq)

theorem Canonical.delete {t : LPMTree V} {M : List Int32 → Option V} (h : Canonical t M) (k : Nat)
    (rid : Bytes) :
    Canonical (t.delete k rid).1 (Function.update M (LPMTree.hashPath k rid) none) := by
  by_cases hp : t.nodeAt (LPMTree.hashPath k rid) = none
  · have e : Function.update M (LPMTree.hashPath k rid) none = M := by
      rw [← h.unbound hp, Function.update_eq_self]
    rw [LPMTree.delete_absent hp, e]
    exact h
  · exact (h.delete_present hp).1

/-! ## searchPrefix -/

theorem searchLoop_spec {t : LPMTree V} {p : List Int32} {cur : Addr} (hp : t.nodeAt p = some cur)
    (chunks : List Bytes) : ∃ n, n ≤ chunks.length ∧
      t.nodeAt (p ++ (chunks.map arraysHashCode).take n)
        = some (LPMTree.searchLoop t.heap cur chunks) ∧
      (n < chunks.length → t.nodeAt (p ++ (chunks.map arraysHashCode).take (n + 1)) = none) := by
  induction chunks generalizing p cur with
  | nil =>
    refine ⟨0, le_rfl, ?_, fun h => absurd h (Nat.lt_irrefl 0)⟩
    rw [List.take_zero, List.append_nil]
    exact hp
  | cons chunk chunks ih =>
    have hstop := LPMTree.nodeAt_child hp (arraysHashCode chunk)
    cases hc : (t.heap.deref cur).getChild chunk with
    | none =>
      refine ⟨0, Nat.zero_le _, ?_, fun _ => hstop.trans hc⟩
      rw [List.take_zero, List.append_nil, LPMTree.searchLoop_stop hc]
      exact hp
    | some child =>
      obtain ⟨n, hn, h1, h2⟩ := ih (hstop.trans hc)
      have happ : ∀ m, p ++ ((chunk :: chunks).map arraysHashCode).take (m + 1)
          = (p ++ [arraysHashCode chunk]) ++ (chunks.map arraysHashCode).take m := by
        intro m
        simp
      refine ⟨n + 1, Nat.succ_le_succ hn, ?_, fun hlt => ?_⟩
      · rw [happ, LPMTree.searchLoop_child hc]
        exact h1
      · rw [happ]
        exact h2 (Nat.lt_of_succ_lt_succ hlt)

/-- `searchPrefix` returns the value of the deepest node on the path of `rid` -/
theorem Canonical.search {t : LPMTree V} {M : List Int32 → Option V} (h : Canonical t M) (k : Nat)
    (rid : Bytes) : ∃ n, IsDeepest (fun p => t.nodeAt p ≠ none) (LPMTree.hashPath k rid) n ∧
      t.searchPrefix k rid = M ((LPMTree.hashPath k rid).take n) := by
  obtain ⟨n, hn, h1, h2⟩ := searchLoop_spec t.nodeAt_nil (LPMTree.tokenize rid k)
  have hlen : (LPMTree.tokenize rid k).length = (LPMTree.hashPath k rid).length := by
    rw [LPMTree.hashPath_eq, List.length_map]
  rw [List.nil_append, ← LPMTree.hashPath_eq] at h1
  rw [List.nil_append, ← LPMTree.hashPath_eq, hlen] at h2
  refine ⟨n, ⟨hlen ▸ hn, ?_, fun m hm hmle hne => ?_⟩, h.value_eq _ _ h1⟩
  · show t.nodeAt ((LPMTree.hashPath k rid).take n) ≠ none
    rw [h1]
    exact Option.some_ne_none _
  · have hnone := h2 (by omega)
    exact nodeAt_anti t (List.take_prefix_take_left hm) hne hnone

end

end BA
