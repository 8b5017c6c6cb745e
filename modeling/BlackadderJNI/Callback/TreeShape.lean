import Mathlib.Data.List.Induction
import BlackadderJNI.Callback.LPMTree

/-!
# The shape of a prefix tree

What the linked nodes of an `LPMTree` represent, and how one elementary change of the heap
(a value set, a child linked, a childless child unlinked) acts on it.

* `Heap.walk h a p`    follow the hashes `p` from the node `a`;
* `LPMTree.nodeAt t p` the node at the hash path `p`;
* `Tidy t`             the links form a tree: children are younger than their parent, a node is
                       linked once, under the hash of its own chunk;
* `Shape t E M`        `t` is tidy, its nodes are at the paths in `E`, with the values `M`;
* `Shape.setValue`, `Shape.link`, `Shape.unlink`   the three elementary changes.
-/

namespace BA

/-! ## one heap cell changed -/

namespace Heap
variable {V : Type}

theorem deref_modify (h : Heap V) (a b : Addr) (f : Node V → Node V) (ha : a < h.length) :
    deref (h.modify a f) b = if b = a then f (h.deref a) else h.deref b := by
  unfold deref
  rw [List.getElem?_modify]
  by_cases e : b = a
  · subst e
    rw [if_pos rfl, List.getElem?_eq_getElem ha]
    simp
  · have e' : ¬ a = b := fun h => e h.symm
    simp [e, e']

/-- a part of the nodes that `f` does not touch -/
theorem deref_modify_keep {β : Type} (g : Node V → β) (h : Heap V) (a b : Addr)
    (f : Node V → Node V) (hf : ∀ n, g (f n) = g n) :
    g (deref (h.modify a f) b) = g (h.deref b) := by
  by_cases ha : a < h.length
  · rw [deref_modify h a b f ha]
    by_cases e : b = a
    · rw [if_pos e, hf, e]
    · rw [if_neg e]
  · rw [List.modify_eq_self (Nat.le_of_not_lt ha)]

theorem deref_append_lt (h : Heap V) (n : Node V) {a : Addr} (ha : a < h.length) :
    deref (h ++ [n]) a = h.deref a := by
  unfold deref
  rw [List.getElem?_append_left ha]

theorem deref_append_self (h : Heap V) (n : Node V) : deref (h ++ [n]) h.length = n := by
  unfold deref
  simp

theorem deref_ge (h : Heap V) {a : Addr} (ha : h.length ≤ a) : h.deref a = Node.new := by
  unfold deref
  rw [List.getElem?_eq_none ha]
  rfl

/-! ## children and paths -/

def child? (h : Heap V) (a : Addr) (c : Int32) : Option Addr := (h.deref a).children.lookup c

def walk (h : Heap V) : Addr → List Int32 → Option Addr
  | a, [] => some a
  | a, c :: p => (h.child? a c).bind fun b => walk h b p

theorem walk_append (h : Heap V) (a : Addr) (p q : List Int32) :
    h.walk a (p ++ q) = (h.walk a p).bind fun b => h.walk b q := by
  induction p generalizing a with
  | nil => rfl
  | cons c p ih =>
    show (h.child? a c).bind (fun b => h.walk b (p ++ q)) = ((h.child? a c).bind _).bind _
    cases h.child? a c with
    | none => rfl
    | some b => exact ih b

theorem walk_snoc (h : Heap V) (a : Addr) (p : List Int32) (c : Int32) :
    h.walk a (p ++ [c]) = (h.walk a p).bind fun b => h.child? b c := by
  rw [walk_append]
  congr 1
  funext b
  show (h.child? b c).bind some = h.child? b c
  cases h.child? b c <;> rfl

theorem walk_congr (h h' : Heap V) (hc : ∀ a c, h'.child? a c = h.child? a c) (a : Addr)
    (p : List Int32) : h'.walk a p = h.walk a p := by
  induction p generalizing a with
  | nil => rfl
  | cons c p ih =>
    show (h'.child? a c).bind _ = (h.child? a c).bind _
    rw [hc]
    congr 1
    funext b
    exact ih b

theorem child?_fresh (h : Heap V) (c : Int32) : h.child? h.length c = none := by
  unfold child?
  rw [deref_ge h le_rfl]
  rfl

end Heap

/-! ## trees -/

section
variable {V : Type}

def LPMTree.nodeAt (t : LPMTree V) (p : List Int32) : Option Addr := t.heap.walk t.root p

structure Tidy (t : LPMTree V) : Prop where
  root_eq : t.root = 0
  root_lt : 0 < t.heap.length
  child_lt : ∀ a c b, t.heap.child? a c = some b → b < t.heap.length
  child_gt : ∀ a c b, t.heap.child? a c = some b → a < b
  once : ∀ a c a' c' b, t.heap.child? a c = some b → t.heap.child? a' c' = some b →
    a = a' ∧ c = c'
  hash_eq : ∀ a c b, t.heap.child? a c = some b → (t.heap.deref b).hashCode = c

theorem LPMTree.nodeAt_nil (t : LPMTree V) : t.nodeAt [] = some t.root := rfl

theorem LPMTree.nodeAt_snoc (t : LPMTree V) (p : List Int32) (c : Int32) :
    t.nodeAt (p ++ [c]) = (t.nodeAt p).bind fun b => t.heap.child? b c :=
  Heap.walk_snoc t.heap t.root p c

theorem LPMTree.nodeAt_snoc_some {t : LPMTree V} {p : List Int32} {c : Int32} {b : Addr}
    (h : t.nodeAt (p ++ [c]) = some b) : ∃ a, t.nodeAt p = some a ∧ t.heap.child? a c = some b :=
  Option.bind_eq_some_iff.mp ((t.nodeAt_snoc p c).symm.trans h)

theorem LPMTree.nodeAt_child {t : LPMTree V} {p : List Int32} {a : Addr} (h : t.nodeAt p = some a)
    (c : Int32) : t.nodeAt (p ++ [c]) = t.heap.child? a c := by
  rw [t.nodeAt_snoc, h]
  rfl

theorem Tidy.nodeAt_lt {t : LPMTree V} (ht : Tidy t) {p : List Int32} {a : Addr}
    (h : t.nodeAt p = some a) : a < t.heap.length := by
  rcases List.eq_nil_or_concat' p with rfl | ⟨p, c, rfl⟩
  · have e : t.root = a := Option.some.inj h
    rw [← e, ht.root_eq]
    exact ht.root_lt
  · obtain ⟨b, _, hb⟩ := LPMTree.nodeAt_snoc_some h
    exact ht.child_lt b c a hb

theorem Tidy.not_root {t : LPMTree V} (ht : Tidy t) (p : List Int32) (c : Int32) :
    t.nodeAt (p ++ [c]) ≠ some t.root := by
  intro h
  obtain ⟨b, _, hb⟩ := LPMTree.nodeAt_snoc_some h
  have hlt := ht.child_gt b c t.root hb
  rw [ht.root_eq] at hlt
  exact absurd hlt (Nat.not_lt_zero b)

/-- two paths to one node are equal -/
theorem Tidy.nodeAt_inj {t : LPMTree V} (ht : Tidy t) {p q : List Int32} {a : Addr}
    (hp : t.nodeAt p = some a) (hq : t.nodeAt q = some a) : p = q := by
  induction p using List.reverseRecOn generalizing q a with
  | nil =>
    rcases List.eq_nil_or_concat' q with rfl | ⟨q, d, rfl⟩
    · rfl
    · exact absurd (hq.trans hp.symm) (ht.not_root q d)
  | append_singleton p c ih =>
    rcases List.eq_nil_or_concat' q with rfl | ⟨q, d, rfl⟩
    · exact absurd (hp.trans hq.symm) (ht.not_root p c)
    · obtain ⟨b, hb, hbc⟩ := LPMTree.nodeAt_snoc_some hp
      obtain ⟨b', hb', hbd⟩ := LPMTree.nodeAt_snoc_some hq
      obtain ⟨e1, e2⟩ := ht.once b c b' d a hbc hbd
      subst e1 e2
      rw [ih hb hb']

/-- The edge `c` of the node at `p` now leads to `x`, and neither the old nor the new target has
children: only the path `p ++ [c]` leads elsewhere. -/
theorem Tidy.walk_edge {t : LPMTree V} (ht : Tidy t) (h' : Heap V) {p : List Int32} {par : Addr}
    (hp : t.nodeAt p = some par) (c : Int32) (x : Option Addr)
    (hch : ∀ a d, h'.child? a d = if a = par ∧ d = c then x else t.heap.child? a d)
    (hnew : ∀ y, x = some y → ∀ d, h'.child? y d = none)
    (hold : ∀ y, t.heap.child? par c = some y → ∀ d, t.heap.child? y d = none)
    (q : List Int32) : h'.walk t.root q = if q = p ++ [c] then x else t.nodeAt q := by
  induction q using List.reverseRecOn with
  | nil => rw [if_neg (by simp)]; rfl
  | append_singleton q d ih =>
    rw [Heap.walk_snoc, ih]
    have hsnoc := t.nodeAt_snoc q d
    by_cases e : q = p ++ [c]
    · -- below the edge there is nothing, before and after
      subst e
      rw [if_pos rfl, if_neg (by simp), hsnoc, LPMTree.nodeAt_child hp]
      have h1 : (x.bind fun b => h'.child? b d) = none := by
        cases hx : x with
        | none => rfl
        | some y => exact hnew y hx d
      have h2 : ((t.heap.child? par c).bind fun b => t.heap.child? b d) = none := by
        cases hy : t.heap.child? par c with
        | none => rfl
        | some y => exact hold y hy d
      rw [h1, h2]
    · rw [if_neg e, hsnoc]
      cases hq : t.nodeAt q with
      | none =>
        have hne : q ++ [d] ≠ p ++ [c] := by
          intro heq
          have := List.append_inj_left' heq rfl
          rw [this, hp] at hq
          cases hq
        rw [if_neg hne]
        rfl
      | some a =>
        show h'.child? a d = _
        rw [hch]
        by_cases hcase : a = par ∧ d = c
        · obtain ⟨rfl, rfl⟩ := hcase
          have hqp := ht.nodeAt_inj hq hp
          rw [if_pos ⟨rfl, rfl⟩, hqp, if_pos rfl]
        · have hne : q ++ [d] ≠ p ++ [c] := by
            intro heq
            have h1 := List.append_inj_left' heq rfl
            have h2 := List.append_inj_right' heq rfl
            rw [h1, hp] at hq
            exact hcase ⟨(Option.some.inj hq).symm, by simpa using h2⟩
          rw [if_neg hcase, if_neg hne]
          rfl

/-! ## the elementary changes -/

structure Shape (t : LPMTree V) (E : List Int32 → Prop) (M : List Int32 → Option V) : Prop where
  tidy : Tidy t
  exists_iff : ∀ p, t.nodeAt p ≠ none ↔ E p
  value_eq : ∀ p a, t.nodeAt p = some a → (t.heap.deref a).value = M p

theorem Shape.congr {t : LPMTree V} {E E' : List Int32 → Prop} {M M' : List Int32 → Option V}
    (h : Shape t E M) (hE : ∀ p, E p ↔ E' p) (hM : ∀ p, M p = M' p) : Shape t E' M' :=
  ⟨h.tidy, fun p => (h.exists_iff p).trans (hE p), fun p a ha => (h.value_eq p a ha).trans (hM p)⟩

theorem Shape.of_nodeAt {t : LPMTree V} {E : List Int32 → Prop} {M : List Int32 → Option V}
    (h : Shape t E M) {p : List Int32} {a : Addr} (ha : t.nodeAt p = some a) : E p :=
  (h.exists_iff p).mp (by rw [ha]; exact Option.some_ne_none a)

theorem Shape.absent {t : LPMTree V} {E : List Int32 → Prop} {M : List Int32 → Option V}
    (h : Shape t E M) {p : List Int32} (hp : t.nodeAt p = none) : ¬ E p :=
  fun hE => (h.exists_iff p).mpr hE hp

theorem child?_setValue (h : Heap V) (a : Addr) (v : Option V) (b : Addr) (c : Int32) :
    (h.setValue a v).child? b c = h.child? b c :=
  Heap.deref_modify_keep (fun n => n.children.lookup c) h a b (fun n => n.setValue v) fun _ => rfl

theorem nodeAt_setValue (t : LPMTree V) (a : Addr) (v : Option V) (q : List Int32) :
    (⟨t.heap.setValue a v, t.root⟩ : LPMTree V).nodeAt q = t.nodeAt q :=
  Heap.walk_congr _ _ (child?_setValue t.heap a v) t.root q

/-- a value set at the node of `p` -/
theorem Shape.setValue {t : LPMTree V} {E : List Int32 → Prop} {M : List Int32 → Option V}
    (h : Shape t E M) {p : List Int32} {a : Addr} (ha : t.nodeAt p = some a) (v : Option V) :
    Shape { t with heap := t.heap.setValue a v } E (Function.update M p v) := by
  have halt := h.tidy.nodeAt_lt ha
  have hd : ∀ b, (t.heap.setValue a v).deref b
      = if b = a then (t.heap.deref a).setValue v else t.heap.deref b := fun b =>
    Heap.deref_modify t.heap a b _ halt
  have hc := child?_setValue t.heap a v
  have hhash : ∀ b, ((t.heap.setValue a v).deref b).hashCode = (t.heap.deref b).hashCode := fun b =>
    Heap.deref_modify_keep Node.hashCode t.heap a b _ fun _ => rfl
  have hn := nodeAt_setValue t a v
  have hlen : (t.heap.setValue a v).length = t.heap.length := List.length_modify ..
  refine ⟨⟨h.tidy.root_eq, ?_, ?_, ?_, ?_, ?_⟩, ?_, ?_⟩
  · show 0 < (t.heap.setValue a v).length
    rw [hlen]
    exact h.tidy.root_lt
  · intro b c d hb
    show d < (t.heap.setValue a v).length
    rw [hlen]
    exact h.tidy.child_lt b c d ((hc b c).symm.trans hb)
  · exact fun b c d hb => h.tidy.child_gt b c d ((hc b c).symm.trans hb)
  · exact fun b c b' c' d hb hb' =>
      h.tidy.once b c b' c' d ((hc b c).symm.trans hb) ((hc b' c').symm.trans hb')
  · exact fun b c d hb => (hhash d).trans (h.tidy.hash_eq b c d ((hc b c).symm.trans hb))
  · intro q
    rw [hn]
    exact h.exists_iff q
  · intro q b hb
    rw [hn] at hb
    show ((t.heap.setValue a v).deref b).value = _
    rw [hd]
    by_cases e : q = p
    · subst e
      have e' : b = a := Option.some.inj (hb.symm.trans ha)
      rw [if_pos e', Function.update_self]
      rfl
    · have e' : b ≠ a := fun e' => e (h.tidy.nodeAt_inj (e' ▸ hb) ha)
      rw [if_neg e', Function.update_of_ne e]
      exact h.value_eq q b hb

theorem child?_addChild (h : Heap V) (chunk : Bytes) {cur : Addr} (hcur : cur < h.length)
    (hno : h.child? cur (arraysHashCode chunk) = none) (a : Addr) (d : Int32) :
    (Heap.addChild (h ++ [Node.ofChunk chunk]) cur h.length).child? a d
      = if a = cur ∧ d = arraysHashCode chunk then some h.length else h.child? a d := by
  have hcur' : cur < (h ++ [Node.ofChunk chunk]).length := by
    rw [List.length_append]
    exact Nat.lt_of_lt_of_le hcur (Nat.le_add_right _ _)
  have hnew : ((h ++ [Node.ofChunk chunk]).deref h.length).hashCode = arraysHashCode chunk := by
    rw [Heap.deref_append_self]
    rfl
  have hlook : (h.deref cur).children.lookup (arraysHashCode chunk) = none := hno
  have hmem : arraysHashCode chunk ∉ (h.deref cur).children := AList.lookup_eq_none.mp hlook
  have hd := Heap.deref_modify (h ++ [Node.ofChunk chunk]) cur a
    (fun n => n.addChild ((h ++ [Node.ofChunk chunk]).deref h.length).hashCode h.length) hcur'
  unfold Heap.child? Heap.addChild
  rw [hd, hnew]
  by_cases e : a = cur
  · subst e
    rw [if_pos rfl, Heap.deref_append_lt h _ hcur]
    unfold Node.addChild
    rw [if_neg hmem]
    by_cases e' : d = arraysHashCode chunk
    · subst e'
      rw [if_pos ⟨rfl, rfl⟩]
      exact AList.lookup_insert _
    · rw [if_neg (fun hh => e' hh.2)]
      exact AList.lookup_insert_ne e'
  · rw [if_neg e, if_neg (fun hh => e hh.1)]
    by_cases ha : a < h.length
    · rw [Heap.deref_append_lt h _ ha]
    · -- the new node has no children, and neither has an address outside the heap
      have hle : h.length ≤ a := Nat.le_of_not_lt ha
      rw [Heap.deref_ge h hle]
      rcases Nat.eq_or_lt_of_le hle with rfl | hlt
      · rw [Heap.deref_append_self]
        rfl
      · rw [Heap.deref_ge (h ++ [Node.ofChunk chunk]) (by rw [List.length_append]; exact hlt)]

theorem child?_removeChild (h : Heap V) {par child : Addr} {c : Int32} (hpar : par < h.length)
    (hhash : (h.deref child).hashCode = c) (a : Addr) (d : Int32) :
    (h.removeChild par child).child? a d
      = if a = par ∧ d = c then none else h.child? a d := by
  have hd := Heap.deref_modify h par a (fun n => n.removeChild (h.deref child).hashCode) hpar
  unfold Heap.child? Heap.removeChild
  rw [hd, hhash]
  by_cases e : a = par
  · subst e
    rw [if_pos rfl]
    unfold Node.removeChild
    by_cases hm : c ∈ (h.deref a).children
    · rw [if_pos hm]
      by_cases e' : d = c
      · subst e'
        rw [if_pos ⟨rfl, rfl⟩]
        exact AList.lookup_erase _ _
      · rw [if_neg (fun hh => e' hh.2)]
        exact AList.lookup_erase_ne e'
    · rw [if_neg hm]
      by_cases e' : d = c
      · subst e'
        rw [if_pos ⟨rfl, rfl⟩]
        exact AList.lookup_eq_none.mpr hm
      · rw [if_neg (fun hh => e' hh.2)]
  · rw [if_neg e, if_neg (fun hh => e hh.1)]

theorem Node.addChild_value (n : Node V) (c : Int32) (a : Addr) :
    (n.addChild c a).value = n.value := by
  unfold Node.addChild
  split <;> rfl

theorem Node.addChild_hashCode (n : Node V) (c : Int32) (a : Addr) :
    (n.addChild c a).hashCode = n.hashCode := by
  unfold Node.addChild
  split <;> rfl

theorem Node.removeChild_value (n : Node V) (c : Int32) : (n.removeChild c).value = n.value := by
  unfold Node.removeChild
  split <;> rfl

theorem Node.removeChild_hashCode (n : Node V) (c : Int32) :
    (n.removeChild c).hashCode = n.hashCode := by
  unfold Node.removeChild
  split <;> rfl

/-- a new node linked under `cur` keeps the tree tidy -/
theorem Tidy.link {t : LPMTree V} (h : Tidy t) {cur : Addr} (hcur : cur < t.heap.length)
    (chunk : Bytes) (hno : t.heap.child? cur (arraysHashCode chunk) = none) :
    Tidy { t with heap := Heap.addChild (t.heap ++ [Node.ofChunk chunk]) cur t.heap.length } := by
  have hch := child?_addChild t.heap chunk hcur hno
  have hlen : (Heap.addChild (t.heap ++ [Node.ofChunk chunk]) cur t.heap.length).length =
      t.heap.length + 1 := by
    show (List.modify _ _ _).length = _
    rw [List.length_modify, List.length_append]
    rfl
  have hhash : ∀ b,
      ((Heap.addChild (t.heap ++ [Node.ofChunk chunk]) cur t.heap.length).deref b).hashCode
        = ((t.heap ++ [Node.ofChunk chunk]).deref b).hashCode := fun b =>
    Heap.deref_modify_keep Node.hashCode _ cur b _ fun n => n.addChild_hashCode _ _
  refine ⟨h.root_eq, ?_, ?_, ?_, ?_, ?_⟩
  · rw [hlen]
    exact Nat.succ_pos _
  · intro a c b hb
    rw [hch] at hb
    rw [hlen]
    split at hb
    · rw [← Option.some.inj hb]
      exact Nat.lt_succ_self _
    · exact Nat.lt_succ_of_lt (h.child_lt a c b hb)
  · intro a c b hb
    rw [hch] at hb
    split at hb
    · rename_i e
      rw [← Option.some.inj hb, e.1]
      exact hcur
    · exact h.child_gt a c b hb
  · intro a c a' c' b hb hb'
    rw [hch] at hb hb'
    split at hb
    · rename_i e
      split at hb'
      · rename_i e'
        exact ⟨e.1.trans e'.1.symm, e.2.trans e'.2.symm⟩
      · have hlt := h.child_lt a' c' b hb'
        rw [← Option.some.inj hb] at hlt
        exact absurd hlt (Nat.lt_irrefl _)
    · split at hb'
      · have hlt := h.child_lt a c b hb
        rw [← Option.some.inj hb'] at hlt
        exact absurd hlt (Nat.lt_irrefl _)
      · exact h.once a c a' c' b hb hb'
  · intro a c b hb
    rw [hch] at hb
    rw [hhash]
    split at hb
    · rename_i e
      rw [← Option.some.inj hb, Heap.deref_append_self, e.2]
      rfl
    · rw [Heap.deref_append_lt _ _ (h.child_lt a c b hb)]
      exact h.hash_eq a c b hb

/-- a new node linked under the node of `p` -/
theorem Shape.link {t : LPMTree V} {E : List Int32 → Prop} {M : List Int32 → Option V}
    (h : Shape t E M) {p : List Int32} {cur : Addr} (hp : t.nodeAt p = some cur) (chunk : Bytes)
    (hno : t.heap.child? cur (arraysHashCode chunk) = none) :
    let t' : LPMTree V :=
      { t with heap := Heap.addChild (t.heap ++ [Node.ofChunk chunk]) cur t.heap.length }
    Shape t' (fun q => E q ∨ q = p ++ [arraysHashCode chunk])
        (Function.update M (p ++ [arraysHashCode chunk]) none) ∧
      t'.nodeAt (p ++ [arraysHashCode chunk]) = some t.heap.length := by
  intro t'
  have hcur := h.tidy.nodeAt_lt hp
  have hch := child?_addChild t.heap chunk hcur hno
  have hval : ∀ b, (t'.heap.deref b).value
      = ((t.heap ++ [Node.ofChunk chunk]).deref b).value := fun b =>
    Heap.deref_modify_keep Node.value _ cur b _ fun n => n.addChild_value _ _
  have hwalk : ∀ q, t'.nodeAt q
      = if q = p ++ [arraysHashCode chunk] then some t.heap.length else t.nodeAt q := by
    apply h.tidy.walk_edge t'.heap hp _ _ hch
    · intro y hy d
      have e : t.heap.length = y := Option.some.inj hy
      rw [hch, if_neg (fun hh => Nat.ne_of_gt hcur (e.trans hh.1)), ← e, Heap.child?_fresh]
    · intro y hy
      rw [hno] at hy
      cases hy
  refine ⟨⟨h.tidy.link hcur chunk hno, ?_, ?_⟩, by rw [hwalk, if_pos rfl]⟩
  · intro q
    rw [hwalk]
    by_cases e : q = p ++ [arraysHashCode chunk]
    · rw [if_pos e]
      exact ⟨fun _ => Or.inr e, fun _ => Option.some_ne_none _⟩
    · rw [if_neg e, h.exists_iff]
      exact ⟨Or.inl, fun hh => hh.resolve_right e⟩
  · intro q a ha
    rw [hwalk] at ha
    rw [hval]
    by_cases e : q = p ++ [arraysHashCode chunk]
    · rw [if_pos e] at ha
      rw [← Option.some.inj ha, Heap.deref_append_self, e, Function.update_self]
      rfl
    · rw [if_neg e] at ha
      rw [Heap.deref_append_lt _ _ (h.tidy.nodeAt_lt ha), Function.update_of_ne e]
      exact h.value_eq q a ha

/-- removing an edge keeps the tree tidy -/
theorem Tidy.unlink {t : LPMTree V} (h : Tidy t) {par child : Addr} {c : Int32}
    (hpar : par < t.heap.length) (hedge : t.heap.child? par c = some child) :
    Tidy { t with heap := t.heap.removeChild par child } := by
  have hch := child?_removeChild t.heap hpar (h.hash_eq par c child hedge)
  have hsub : ∀ a d b, (t.heap.removeChild par child).child? a d = some b →
      t.heap.child? a d = some b := by
    intro a d b hb
    rw [hch] at hb
    split at hb
    · cases hb
    · exact hb
  have hhash : ∀ b, ((t.heap.removeChild par child).deref b).hashCode =
      (t.heap.deref b).hashCode := fun b =>
    Heap.deref_modify_keep Node.hashCode _ par b _ fun n => n.removeChild_hashCode _
  have hlen : (t.heap.removeChild par child).length = t.heap.length := List.length_modify ..
  refine ⟨h.root_eq, ?_, ?_, ?_, ?_, ?_⟩
  · rw [hlen]
    exact h.root_lt
  · intro a d b hb
    rw [hlen]
    exact h.child_lt a d b (hsub a d b hb)
  · exact fun a d b hb => h.child_gt a d b (hsub a d b hb)
  · exact fun a d a' d' b hb hb' => h.once a d a' d' b (hsub a d b hb) (hsub a' d' b hb')
  · exact fun a d b hb => (hhash b).trans (h.hash_eq a d b (hsub a d b hb))

/-- the childless node of `p ++ [c]` unlinked from the node of `p` -/
theorem Shape.unlink {t : LPMTree V} {E : List Int32 → Prop} {M : List Int32 → Option V}
    (h : Shape t E M) {p : List Int32} {c : Int32} {par child : Addr} (hp : t.nodeAt p = some par)
    (hc : t.nodeAt (p ++ [c]) = some child) (hleaf : ∀ d, t.heap.child? child d = none) :
    let t' : LPMTree V := { t with heap := t.heap.removeChild par child }
    Shape t' (fun q => E q ∧ q ≠ p ++ [c]) M ∧
      ∀ q, q ≠ p ++ [c] → t'.nodeAt q = t.nodeAt q := by
  intro t'
  have hpar := h.tidy.nodeAt_lt hp
  have hedge : t.heap.child? par c = some child := by rw [← LPMTree.nodeAt_child hp]; exact hc
  have hch := child?_removeChild t.heap hpar (h.tidy.hash_eq par c child hedge)
  have hval : ∀ b, (t'.heap.deref b).value = (t.heap.deref b).value := fun b =>
    Heap.deref_modify_keep Node.value _ par b _ fun n => n.removeChild_value _
  have hwalk : ∀ q, t'.nodeAt q = if q = p ++ [c] then none else t.nodeAt q := by
    apply h.tidy.walk_edge t'.heap hp _ _ hch
    · intro y hy
      cases hy
    · intro y hy d
      rw [hedge] at hy
      rw [← Option.some.inj hy]
      exact hleaf d
  refine ⟨⟨h.tidy.unlink hpar hedge, ?_, ?_⟩, ?_⟩
  · intro q
    rw [hwalk]
    by_cases e : q = p ++ [c]
    · rw [if_pos e]
      exact ⟨fun hh => absurd rfl hh, fun hh => absurd e hh.2⟩
    · rw [if_neg e, h.exists_iff]
      exact ⟨fun hh => ⟨hh, e⟩, fun hh => hh.1⟩
  · intro q a ha
    rw [hwalk] at ha
    rw [hval]
    by_cases e : q = p ++ [c]
    · rw [if_pos e] at ha
      cases ha
    · rw [if_neg e] at ha
      exact h.value_eq q a ha
  · intro q hq
    rw [hwalk, if_neg hq]

end

end BA
