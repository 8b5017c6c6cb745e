import Mathlib.Data.List.Forall2

/-!
# Lists that match entry by entry

What of a list goes over to a list that matches it (`List.Forall₂`): a split, an initial part, a
sublist, having no repetitions; and matching along a list in the middle.
-/

namespace Matching
variable {α β γ : Type*} {R : α → β → Prop}

theorem split {l l' : List α} {m : List β} (h : List.Forall₂ R (l ++ l') m) :
    ∃ done rest, m = done ++ rest ∧ List.Forall₂ R l done ∧ List.Forall₂ R l' rest := by
  refine ⟨m.take l.length, m.drop l.length, (List.take_append_drop _ _).symm, ?_, ?_⟩
  · have ht := List.forall₂_take l.length h
    rwa [List.take_left] at ht
  · have hd := List.forall₂_drop l.length h
    rwa [List.drop_left] at hd

theorem snoc {l : List α} {m : List β} {a : α} {b : β} (h : List.Forall₂ R l m) (hab : R a b) :
    List.Forall₂ R (l ++ [a]) (m ++ [b]) :=
  List.rel_append h (.cons hab .nil)

theorem comp {S : β → γ → Prop} {T : α → γ → Prop} (hT : ∀ a b c, R a b → S b c → T a c)
    {l : List α} {m : List β} {n : List γ} (h : List.Forall₂ R l m) (h' : List.Forall₂ S m n) :
    List.Forall₂ T l n := by
  induction h generalizing n with
  | nil =>
    cases h'
    exact .nil
  | cons hab _ ih =>
    cases h' with
    | cons hbc h' => exact .cons (hT _ _ _ hab hbc) (ih h')

/-- two lists match by `T` exactly when all that stands between them is `P` -/
theorem comp_iff {S : β → γ → Prop} {T : α → γ → Prop} {P : β → Prop}
    (hT : ∀ a b c, R a b → S b c → (T a c ↔ P b)) {l : List α} {m : List β} {n : List γ}
    (h : List.Forall₂ R l m) (h' : List.Forall₂ S m n) :
    List.Forall₂ T l n ↔ ∀ b ∈ m, P b := by
  induction h generalizing n with
  | nil =>
    cases h'
    exact ⟨fun _ => List.forall_mem_nil P, fun _ => .nil⟩
  | cons hab _ ih =>
    cases h' with
    | cons hbc h' =>
      rw [List.forall₂_cons, hT _ _ _ hab hbc, ih h', List.forall_mem_cons]

theorem of_prefix {l l' : List α} {m : List β} (h : List.Forall₂ R l m) (hl : l' <+: l) :
    ∃ m', m' <+: m ∧ List.Forall₂ R l' m' := by
  obtain ⟨rest, rfl⟩ := hl
  obtain ⟨done, more, rfl, hd, _⟩ := split h
  exact ⟨done, List.prefix_append _ _, hd⟩

theorem of_sublist {l l' : List α} {m : List β} (h : List.Forall₂ R l m) (hl : l'.Sublist l) :
    ∃ m', m'.Sublist m ∧ List.Forall₂ R l' m' := by
  induction hl generalizing m with
  | slnil => exact ⟨[], List.nil_sublist m, .nil⟩
  | cons a _ ih =>
    cases h with
    | @cons _ b _ m' _ h =>
      obtain ⟨n, hn, hm⟩ := ih h
      exact ⟨n, hn.cons b, hm⟩
  | cons_cons a _ ih =>
    cases h with
    | @cons _ b _ m' hab h =>
      obtain ⟨n, hn, hm⟩ := ih h
      exact ⟨b :: n, hn.cons_cons b, .cons hab hm⟩

theorem exists_of_mem {l : List α} {m : List β} (h : List.Forall₂ R l m) {a : α} (ha : a ∈ l) :
    ∃ b ∈ m, R a b := by
  induction h with
  | nil => cases ha
  | @cons x y l m hxy _ ih =>
    rcases List.mem_cons.mp ha with rfl | ha
    · exact ⟨y, List.mem_cons_self, hxy⟩
    · obtain ⟨b, hb, hab⟩ := ih ha
      exact ⟨b, List.mem_cons_of_mem y hb, hab⟩

theorem getElem?_right {l : List α} {m : List β} (h : List.Forall₂ R l m) {i : Nat} {b : β}
    (hb : m[i]? = some b) : ∃ a, l[i]? = some a ∧ R a b := by
  induction h generalizing i with
  | nil => cases hb
  | @cons x y l m hxy _ ih =>
    cases i with
    | zero =>
      cases hb
      exact ⟨x, rfl, hxy⟩
    | succ i => exact ih hb

theorem getElem?_left {l : List α} {m : List β} (h : List.Forall₂ R l m) {i : Nat} {a : α}
    (ha : l[i]? = some a) : ∃ b, m[i]? = some b ∧ R a b :=
  getElem?_right (R := fun b a => R a b) h.flip ha

theorem set {l : List α} {m : List β} (h : List.Forall₂ R l m) (i : Nat) {a : α} {b : β}
    (hab : R a b) : List.Forall₂ R (l.set i a) (m.set i b) := by
  induction h generalizing i with
  | nil => exact .nil
  | cons hxy hlm ih =>
    cases i with
    | zero => exact .cons hab hlm
    | succ i => exact .cons hxy (ih i)

/-- an entry replaced by one that has the same match -/
theorem set_left {l : List α} {m : List β} (h : List.Forall₂ R l m) {i : Nat} {a a' : α}
    (ha : l[i]? = some a) (hR : ∀ b, R a b → R a' b) : List.Forall₂ R (l.set i a') m := by
  induction h generalizing i with
  | nil => exact .nil
  | @cons x y l m hxy hlm ih =>
    cases i with
    | zero =>
      cases ha
      exact .cons (hR y hxy) hlm
    | succ i => exact .cons hxy (ih ha)

theorem snoc_iff {l : List α} {m : List β} {a : α} {b : β} (h : List.Forall₂ R l m) :
    List.Forall₂ R (l ++ [a]) (m ++ [b]) ↔ R a b := by
  refine ⟨fun h' => ?_, snoc h⟩
  have hlast := List.rel_reverse h'
  rw [List.reverse_append, List.reverse_append] at hlast
  exact (List.forall₂_cons.mp hlast).1

theorem getElem_set {l : List α} {m : List β} {i : Nat} {a : α} {b : β}
    (h : List.Forall₂ R (l.set i a) (m.set i b)) (hi : i < m.length) : R a b := by
  have hlen : l.length = m.length := by simpa using h.length_eq
  obtain ⟨a', ha', hab⟩ := getElem?_right h (List.getElem?_set_self hi)
  rw [List.getElem?_set_self (hlen ▸ hi)] at ha'
  exact Option.some.inj ha' ▸ hab

theorem set_iff {l : List α} {m : List β} {i : Nat} {a : α} {b : β} (h : List.Forall₂ R l m)
    (hi : i < m.length) : List.Forall₂ R (l.set i a) (m.set i b) ↔ R a b :=
  ⟨fun h' => getElem_set h' hi, fun hab => set h i hab⟩

theorem map_eq {f : α → γ} {g : β → γ} (hfg : ∀ a b, R a b → f a = g b) {l : List α}
    {m : List β} (h : List.Forall₂ R l m) : l.map f = m.map g := by
  induction h with
  | nil => rfl
  | cons hab _ ih => rw [List.map_cons, List.map_cons, hfg _ _ hab, ih]

/-- an entry goes together with its match, where a key without repetitions tells them -/
theorem erase [BEq α] [LawfulBEq α] [BEq β] [LawfulBEq β] {f : α → γ} {g : β → γ}
    (hfg : ∀ a b, R a b → f a = g b) {l : List α} {m : List β} (h : List.Forall₂ R l m)
    (hl : (l.map f).Nodup) {a : α} (ha : a ∈ l) :
    ∃ b ∈ m, R a b ∧ List.Forall₂ R (l.erase a) (m.erase b) := by
  induction h with
  | nil => cases ha
  | @cons x y l m hxy hlm ih =>
    rw [List.map_cons, List.nodup_cons] at hl
    by_cases hx : x = a
    · subst hx
      refine ⟨y, List.mem_cons_self, hxy, ?_⟩
      rw [List.erase_cons_head, List.erase_cons_head]
      exact hlm
    · have ha' : a ∈ l := (List.mem_cons.mp ha).resolve_left fun e => hx e.symm
      obtain ⟨b, hb, hab, herase⟩ := ih hl.2 ha'
      have hy : y ≠ b := by
        rintro rfl
        have hkey : f a = f x := (hfg a y hab).trans (hfg x y hxy).symm
        exact hl.1 (hkey ▸ List.mem_map_of_mem ha')
      refine ⟨b, List.mem_cons_of_mem y hb, hab, ?_⟩
      rw [List.erase_cons_tail (by simpa using hx), List.erase_cons_tail (by simpa using hy)]
      exact .cons hxy herase

/-- entries that `f` does not tell apart have the same match -/
theorem nodup_map {f : α → γ} (hf : ∀ a b a' b', R a b → R a' b' → f a = f a' → b = b')
    {l : List α} {m : List β} (h : List.Forall₂ R l m) (hm : m.Nodup) : (l.map f).Nodup := by
  induction h with
  | nil => exact List.nodup_nil
  | @cons a b l m hab hrest ih =>
    obtain ⟨hb, hm⟩ := List.nodup_cons.mp hm
    refine List.nodup_cons.mpr ⟨fun hmem => ?_, ih hm⟩
    obtain ⟨a', ha', e⟩ := List.mem_map.mp hmem
    obtain ⟨b', hb', hab'⟩ := exists_of_mem hrest ha'
    exact hb (hf a' b' a b hab' hab e ▸ hb')

theorem filterMap_filter {f : α → Option β} (l : List α) :
    List.Forall₂ (fun a b => f a = some b) (l.filter fun a => (f a).isSome) (l.filterMap f) := by
  induction l with
  | nil => exact .nil
  | cons a l ih =>
    cases h : f a with
    | none => simpa [h] using ih
    | some b => simpa [h] using ih

end Matching
