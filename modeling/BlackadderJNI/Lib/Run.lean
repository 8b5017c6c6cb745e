import Mathlib.Data.List.Basic
import Mathlib.Data.List.Infix
import Mathlib.Tactic.Common

/-!
# Runs of a labelled step function

A system is a partial step function `step : St → Act → Option St`: the label `a` fixes who moves
and every choice of the environment, `none` says that the move is not enabled.  An interleaving
is a list of labels.

* `run step s as`        the state after the labels `as`, in order (`none` when one is disabled);
* `Along step C s as`    every step of the run satisfies the condition `C` on the state before
                         the step and its label;
* `run_inv`              the invariant rule: what every step preserves holds at the end;
* `run_inv_along`        the same for runs whose steps all meet a condition;
* `Visits step s as m`   the run passes through the state `m`;
* `run_hist`, `run_hist_along`   the same for an invariant that also speaks of the labels so far;
* `run_iff_along`        when leaving the condition once is beyond repair, what the steps that
                         meet it preserve holds at the end exactly when all of them met it;
* `all_iff_along`        so for what every step adds to a list;
* `visits_iff_along`     when leaving the condition breaks a property at once, the property
                         holds in every state visited exactly when all steps met the condition;
* `visits_iff_along_of`  the same where the property itself tells which steps break it;
* `run_proj`             a projection of steps onto another system is a projection of runs;
* `run_map`, `along_map`, `visits_map`   the same where one step is one step, with what the steps
                         meet and the states passed through;
* `run_sim`              forward simulation, with the observations of the labels;
* `run_forward`          the same where both systems have the same labels;
* `run_both_iff`         when a system follows another one with the same labels;
* `run_sim_fun`          the same along an abstraction function.
-/

namespace Run

section
variable {St Act : Type*} (step : St → Act → Option St)

def run : St → List Act → Option St
  | s, [] => some s
  | s, a :: as => (step s a).bind fun t => run t as

def Along (C : St → Act → Prop) : St → List Act → Prop
  | _, [] => True
  | s, a :: as => C s a ∧ ∀ t, step s a = some t → Along C t as

instance Along.decidable (C : St → Act → Prop) [∀ s a, Decidable (C s a)] :
    ∀ (s : St) (as : List Act), Decidable (Along step C s as)
  | _, [] => isTrue trivial
  | s, a :: as =>
    have : ∀ t, Decidable (Along step C t as) := fun t => Along.decidable C t as
    inferInstanceAs (Decidable (C s a ∧ ∀ t ∈ step s a, Along step C t as))

@[simp] theorem run_nil (s : St) : run step s [] = some s := rfl

theorem run_cons (s : St) (a : Act) (as : List Act) :
    run step s (a :: as) = (step s a).bind fun t => run step t as := rfl

theorem run_cons_some {s t : St} {a : Act} {as : List Act} (h : run step s (a :: as) = some t) :
    ∃ m, step s a = some m ∧ run step m as = some t :=
  Option.bind_eq_some_iff.mp h

theorem run_append (s : St) (as bs : List Act) :
    run step s (as ++ bs) = (run step s as).bind fun t => run step t bs := by
  induction as generalizing s with
  | nil => rfl
  | cons a as ih =>
    rw [List.cons_append, run_cons, run_cons]
    cases step s a with
    | none => rfl
    | some m => exact ih m

/-- a label of a run is a step of it -/
theorem run_mem {s t : St} {as : List Act} {a : Act} (h : run step s as = some t) (ha : a ∈ as) :
    ∃ bs m m', bs ++ [a] <+: as ∧ run step s bs = some m ∧ step m a = some m' := by
  obtain ⟨bs, cs, rfl⟩ := List.append_of_mem ha
  rw [run_append] at h
  obtain ⟨m, hm, hrest⟩ := Option.bind_eq_some_iff.mp h
  obtain ⟨m', hm', _⟩ := run_cons_some step hrest
  exact ⟨bs, m, m', ⟨cs, by simp⟩, hm, hm'⟩

theorem run_snoc {s t u : St} {as : List Act} {a : Act} (h : run step s as = some t)
    (ha : step t a = some u) : run step s (as ++ [a]) = some u := by
  rw [run_append, h]
  show (step t a).bind _ = _
  rw [ha]
  rfl

theorem run_trans {s t u : St} {as bs : List Act} (h : run step s as = some t)
    (h' : run step t bs = some u) : run step s (as ++ bs) = some u := by
  rw [run_append, h]
  exact h'

variable {step}

theorem Along.mono {C D : St → Act → Prop} (hCD : ∀ s a, C s a → D s a) {s : St} {as : List Act}
    (h : Along step C s as) : Along step D s as := by
  induction as generalizing s with
  | nil => trivial
  | cons a as ih => exact ⟨hCD _ _ h.1, fun t ht => ih (h.2 t ht)⟩

theorem Along.and {C D : St → Act → Prop} {s : St} {as : List Act} (hC : Along step C s as)
    (hD : Along step D s as) : Along step (fun s a => C s a ∧ D s a) s as := by
  induction as generalizing s with
  | nil => trivial
  | cons a as ih => exact ⟨⟨hC.1, hD.1⟩, fun t ht => ih (hC.2 t ht) (hD.2 t ht)⟩

/-- **Invariant rule, for runs whose steps all meet `C`.** -/
theorem run_inv_along {C : St → Act → Prop} {I : St → Prop}
    (hstep : ∀ s a t, C s a → I s → step s a = some t → I t) {s t : St} {as : List Act}
    (hC : Along step C s as) (hs : I s) (h : run step s as = some t) : I t := by
  induction as generalizing s with
  | nil => exact Option.some.inj h ▸ hs
  | cons a as ih =>
    obtain ⟨m, hm, hrest⟩ := run_cons_some step h
    exact ih (hC.2 m hm) (hstep s a m hC.1 hs hm) hrest

/-- an invariant holds at every step -/
theorem Along.inv {C : St → Act → Prop} {I : St → Prop}
    (hstep : ∀ s a t, C s a → I s → step s a = some t → I t) {s : St} {as : List Act}
    (hC : Along step C s as) (hs : I s) : Along step (fun s a => I s ∧ C s a) s as := by
  induction as generalizing s with
  | nil => trivial
  | cons a as ih => exact ⟨⟨hs, hC.1⟩, fun t ht => ih (hC.2 t ht) (hstep s a t hC.1 hs ht)⟩

theorem along_true (s : St) (as : List Act) : Along step (fun _ _ => True) s as := by
  induction as generalizing s with
  | nil => trivial
  | cons a as ih => exact ⟨trivial, fun t _ => ih t⟩

theorem along_of_forall {P : Act → Prop} (s : St) {as : List Act} (h : ∀ a ∈ as, P a) :
    Along step (fun _ a => P a) s as := by
  induction as generalizing s with
  | nil => trivial
  | cons a as ih =>
    exact ⟨h a List.mem_cons_self, fun t _ => ih t fun b hb => h b (List.mem_cons_of_mem a hb)⟩

/-- **Invariant rule.** -/
theorem run_inv {I : St → Prop} (hstep : ∀ s a t, I s → step s a = some t → I t) {s t : St}
    {as : List Act} (hs : I s) (h : run step s as = some t) : I t :=
  run_inv_along (fun s a t _ => hstep s a t) (along_true s as) hs h

/-- A step outside `C` leads from the good states to bad ones, and bad states stay bad. -/
theorem run_iff_along {C : St → Act → Prop} {G B : St → Prop}
    (hne : ∀ s, G s → ¬ B s)
    (hgood : ∀ s a t, G s → C s a → step s a = some t → G t)
    (hleave : ∀ s a t, G s → ¬ C s a → step s a = some t → B t)
    (hbad : ∀ s a t, B s → step s a = some t → B t) {s t : St} {as : List Act}
    (hs : G s) (h : run step s as = some t) : G t ↔ Along step C s as := by
  refine ⟨fun ht => ?_, fun hC => run_inv_along (fun s a t hc hg => hgood s a t hg hc) hC hs h⟩
  induction as generalizing s with
  | nil => trivial
  | cons a as ih =>
    obtain ⟨m, hm, hrest⟩ := run_cons_some step h
    by_cases hc : C s a
    · refine ⟨hc, fun m' hm' => ?_⟩
      have e : m = m' := Option.some.inj (hm.symm.trans hm')
      exact e ▸ ih (hgood s a m hs hc hm) hrest
    · exact absurd (run_inv hbad (hleave s a m hs hc hm) hrest) (hne t ht)

/-- A list that every step extends has a property exactly when every extension has it. -/
theorem all_iff_along {X : Type*} {l : St → List X} {more : St → Act → List X} {P : X → Prop}
    (hstep : ∀ s a t, step s a = some t → l t = l s ++ more s a) {s t : St} {as : List Act}
    (hs : ∀ x ∈ l s, P x) (h : run step s as = some t) :
    (∀ x ∈ l t, P x) ↔ Along step (fun s a => ∀ x ∈ more s a, P x) s as := by
  refine run_iff_along (B := fun u => ¬ ∀ x ∈ l u, P x) (fun _ hg hb => hb hg) ?_ ?_ ?_ hs h
  · intro u a v hu ha hv x hx
    rw [hstep u a v hv] at hx
    exact (List.mem_append.mp hx).elim (hu x) (ha x)
  · intro u a v _ ha hv hall
    exact ha fun x hx => hall x (hstep u a v hv ▸ List.mem_append_right _ hx)
  · intro u a v hu hv hall
    exact hu fun x hx => hall x (hstep u a v hv ▸ List.mem_append_left _ hx)

/-- the state after a prefix of the run -/
def Visits (step : St → Act → Option St) (s : St) (as : List Act) (m : St) : Prop :=
  ∃ bs, bs <+: as ∧ run step s bs = some m

theorem Visits.last {s t : St} {as : List Act} (h : run step s as = some t) :
    Visits step s as t := ⟨as, List.prefix_refl _, h⟩

theorem Visits.mono {s m : St} {as bs : List Act} (h : Visits step s bs m) (hb : bs <+: as) :
    Visits step s as m := by
  obtain ⟨cs, hc, hm⟩ := h
  exact ⟨cs, hc.trans hb, hm⟩

/-- a run visits its first state, and what the rest of it visits -/
theorem visits_cons {s m : St} {a : Act} {as : List Act} (h : step s a = some m) (n : St) :
    Visits step s (a :: as) n ↔ n = s ∨ Visits step m as n := by
  constructor
  · rintro ⟨bs, hpre, hbs⟩
    cases bs with
    | nil => exact Or.inl (Option.some.inj hbs).symm
    | cons b bs =>
      obtain ⟨rfl, hpre'⟩ := List.cons_prefix_cons.mp hpre
      obtain ⟨m', hm', hrest⟩ := run_cons_some step hbs
      exact Or.inr ⟨bs, hpre', Option.some.inj (h.symm.trans hm') ▸ hrest⟩
  · intro hor
    rcases hor with rfl | ⟨bs, hpre, hbs⟩
    · exact ⟨[], List.nil_prefix, rfl⟩
    · refine ⟨a :: bs, List.cons_prefix_cons.mpr ⟨rfl, hpre⟩, ?_⟩
      rw [run_cons, h]
      exact hbs

/-- From the states of `G`, the steps of `C` keep it and the others break it at once. -/
theorem visits_iff_along_of {C : St → Act → Prop} {G : St → Prop}
    (hgood : ∀ s a t, G s → C s a → step s a = some t → G t)
    (hleave : ∀ s a t, G s → ¬ C s a → step s a = some t → ¬ G t) {s t : St} {as : List Act}
    (hG : G s) (h : run step s as = some t) :
    (∀ m, Visits step s as m → G m) ↔ Along step C s as := by
  induction as generalizing s with
  | nil =>
    refine ⟨fun _ => trivial, fun _ m hm => ?_⟩
    obtain ⟨bs, hpre, hbs⟩ := hm
    rw [List.prefix_nil.mp hpre] at hbs
    exact Option.some.inj hbs ▸ hG
  | cons a as ih =>
    obtain ⟨m, hm, hrest⟩ := run_cons_some step h
    constructor
    · intro hall
      have hGm : G m := hall m ((visits_cons hm m).mpr (Or.inr ⟨[], List.nil_prefix, rfl⟩))
      refine ⟨?_, fun m' hm' => ?_⟩
      · by_contra hc
        exact hleave s a m hG hc hm hGm
      · have e : m = m' := Option.some.inj (hm.symm.trans hm')
        exact e ▸ (ih hGm hrest).mp fun n hn => hall n ((visits_cons hm n).mpr (Or.inr hn))
    · intro hC n hn
      rcases (visits_cons hm n).mp hn with rfl | hn
      · exact hG
      · exact (ih (hgood s a m hG hC.1 hm) hrest).mpr (hC.2 m hm) n hn

/-- Under an invariant `I` of all steps, a step outside `C` breaks `G` at once. -/
theorem visits_iff_along {C : St → Act → Prop} {I G : St → Prop}
    (hinv : ∀ s a t, I s → step s a = some t → I t)
    (hgood : ∀ s a t, I s → G s → C s a → step s a = some t → G t)
    (hleave : ∀ s a t, I s → ¬ C s a → step s a = some t → ¬ G t) {s t : St} {as : List Act}
    (hI : I s) (hG : G s) (h : run step s as = some t) :
    (∀ m, Visits step s as m → G m) ↔ Along step C s as := by
  have hall : ∀ m, Visits step s as m → I m := fun m ⟨bs, _, hbs⟩ => run_inv hinv hI hbs
  rw [← visits_iff_along_of (G := fun m => I m ∧ G m)
    (fun s a t hs hc ht => ⟨hinv s a t hs.1 ht, hgood s a t hs.1 hs.2 hc ht⟩)
    (fun s a t hs hc ht hIG => hleave s a t hs.1 hc ht hIG.2) ⟨hI, hG⟩ h]
  exact forall₂_congr fun m hm => (and_iff_right (hall m hm)).symm

instance Visits.decidableForall (s : St) (as : List Act) (P : St → Prop) [DecidablePred P] :
    Decidable (∀ m, Visits step s as m → P m) :=
  decidable_of_iff (∀ bs ∈ as.inits, ∀ m ∈ run step s bs, P m)
    ⟨fun h m ⟨bs, hb, hm⟩ => h bs ((List.mem_inits bs as).mpr hb) m hm,
      fun h bs hb m hm => h m ⟨bs, (List.mem_inits bs as).mp hb, hm⟩⟩

/-- **Invariant rule with history**, for runs whose steps all meet `C`: `I s as` speaks of a state
and of the labels that led to it. -/
theorem run_hist_along {C : St → Act → Prop} {I : St → List Act → Prop} {s : St} (hs : I s [])
    (hstep : ∀ t as a u, C t a → run step s as = some t → I t as → step t a = some u →
      I u (as ++ [a])) {t : St} {as : List Act} (hC : Along step C s as)
    (h : run step s as = some t) : I t as := by
  suffices key : ∀ (bs done : List Act) (m : St), run step s done = some m → Along step C m bs →
      I m done → run step m bs = some t → I t (done ++ bs) from key as [] s rfl hC hs h
  intro bs
  induction bs with
  | nil =>
    intro done m _ _ hm h
    rw [List.append_nil]
    exact Option.some.inj h ▸ hm
  | cons b bs ih =>
    intro done m hdone hbs hm h
    obtain ⟨n, hn, hrest⟩ := run_cons_some step h
    have h' := ih (done ++ [b]) n (run_snoc step hdone hn) (hbs.2 n hn)
      (hstep m done b n hbs.1 hdone hm hn) hrest
    rwa [List.append_assoc] at h'

/-- **Invariant rule with history.** -/
theorem run_hist {I : St → List Act → Prop} {s : St} (hs : I s [])
    (hstep : ∀ t as a u, I t as → step t a = some u → I u (as ++ [a])) {t : St} {as : List Act}
    (h : run step s as = some t) : I t as :=
  run_hist_along hs (fun t as a u _ _ => hstep t as a u) (along_true s as) h

end

section
variable {St Act St' Act' : Type*} {step : St → Act → Option St}
  {step' : St' → Act' → Option St'}

/-- **Projection**: when one step is a (possibly empty) run of a second system under `f`, a run
is a run of the second system. -/
theorem run_proj (f : St → St') (g : Act → List Act')
    (hstep : ∀ s a t, step s a = some t → run step' (f s) (g a) = some (f t)) {s t : St}
    {as : List Act} (h : run step s as = some t) :
    run step' (f s) (as.flatMap g) = some (f t) := by
  induction as generalizing s with
  | nil => exact congrArg (fun o => o.map f) h
  | cons a as ih =>
    obtain ⟨m, hm, hrest⟩ := run_cons_some step h
    exact run_trans step' (hstep s a m hm) (ih hrest)

/-- the same where one step is one step -/
theorem run_map (f : St → St') (g : Act → Act')
    (hstep : ∀ s a t, step s a = some t → step' (f s) (g a) = some (f t)) {s t : St}
    {as : List Act} (h : run step s as = some t) : run step' (f s) (as.map g) = some (f t) := by
  rw [List.map_eq_flatMap]
  exact run_proj f (fun a => [g a])
    (fun s a t ha => run_snoc step' (run_nil step' (f s)) (hstep s a t ha)) h

theorem along_map (f : St → St') (g : Act → Act')
    (hstep : ∀ s a t, step s a = some t → step' (f s) (g a) = some (f t))
    {C : St → Act → Prop} {C' : St' → Act' → Prop} (hCC' : ∀ s a, C s a → C' (f s) (g a)) {s t : St}
    {as : List Act} (hC : Along step C s as) (h : run step s as = some t) :
    Along step' C' (f s) (as.map g) := by
  induction as generalizing s with
  | nil => trivial
  | cons a as ih =>
    obtain ⟨m, hm, hrest⟩ := run_cons_some step h
    refine ⟨hCC' s a hC.1, fun m' hm' => ?_⟩
    cases (hstep s a m hm).symm.trans hm'
    exact ih (hC.2 m hm) hrest

theorem visits_map (f : St → St') (g : Act → Act')
    (hstep : ∀ s a t, step s a = some t → step' (f s) (g a) = some (f t)) {s t : St}
    {as : List Act} (h : run step s as = some t) {m' : St'}
    (hm : Visits step' (f s) (as.map g) m') : ∃ m, Visits step s as m ∧ f m = m' := by
  obtain ⟨_, hpre, hbs⟩ := hm
  obtain ⟨bs, ⟨cs, rfl⟩, rfl⟩ := List.prefix_map_iff.mp hpre
  rw [run_append] at h
  obtain ⟨m, hm, _⟩ := Option.bind_eq_some_iff.mp h
  exact ⟨m, ⟨bs, List.prefix_append _ _, hm⟩,
    Option.some.inj ((run_map f g hstep hm).symm.trans hbs)⟩

/-- **Forward simulation**: one step is answered by a run of the second system with the same
observations, so every run is. -/
theorem run_sim {O : Type*} (R : St → St' → Prop) (obs : Act → List O) (obs' : Act' → List O)
    (hstep : ∀ s u a t, R s u → step s a = some t →
      ∃ bs v, run step' u bs = some v ∧ R t v ∧ bs.flatMap obs' = obs a)
    {s t : St} {u : St'} {as : List Act} (hR : R s u) (h : run step s as = some t) :
    ∃ bs v, run step' u bs = some v ∧ R t v ∧ bs.flatMap obs' = as.flatMap obs := by
  induction as generalizing s u with
  | nil => exact ⟨[], u, rfl, Option.some.inj h ▸ hR, rfl⟩
  | cons a as ih =>
    obtain ⟨m, hm, hrest⟩ := run_cons_some step h
    obtain ⟨bs, v, hbs, hv, hobs⟩ := hstep s u a m hR hm
    obtain ⟨cs, w, hcs, hw, hobs'⟩ := ih hv hrest
    refine ⟨bs ++ cs, w, run_trans step' hbs hcs, hw, ?_⟩
    rw [List.flatMap_append, List.flatMap_cons, hobs, hobs']

/-- forward simulation, step by step with the same labels, of a run whose steps all meet `C` -/
theorem run_forward {step' : St' → Act → Option St'} {C : St → Act → Prop} (R : St → St' → Prop)
    (hstep : ∀ s u a t, C s a → R s u → step s a = some t → ∃ v, step' u a = some v ∧ R t v)
    {s t : St} {u : St'} {as : List Act} (hC : Along step C s as) (hR : R s u)
    (h : run step s as = some t) : ∃ v, run step' u as = some v ∧ R t v := by
  induction as generalizing s u with
  | nil => exact ⟨u, rfl, Option.some.inj h ▸ hR⟩
  | cons a as ih =>
    obtain ⟨m, hm, hrest⟩ := run_cons_some step h
    obtain ⟨v, hv, hmv⟩ := hstep s u a m hC.1 hR hm
    obtain ⟨w, hw, htw⟩ := ih (hC.2 m hm) hmv hrest
    exact ⟨w, by rw [run_cons, hv]; exact hw, htw⟩

/-- two systems with the same labels, side by side -/
def both (step : St → Act → Option St) (step' : St' → Act → Option St') (s : St × St') (a : Act) :
    Option (St × St') :=
  (step s.1 a).bind fun t => (step' s.2 a).map fun t' => (t, t')

/-- The first system follows a run of the second, in `R` with it at every moment, exactly when
every step meets `C`: where `C` says of one step when it does so. -/
theorem run_both_iff {step' : St' → Act → Option St'} {C : St × St' → Act → Prop}
    (R : St → St' → Prop) (hstep : ∀ s u a v, R s u → step' u a = some v →
      ((∃ t, step s a = some t ∧ R t v) ↔ C (s, u) a)) {s : St} {u v : St'} {as : List Act}
    (hR : R s u) (h : run step' u as = some v) :
    (∃ t, run step s as = some t ∧ ∀ m, Visits (both step step') (s, u) as m → R m.1 m.2) ↔
      Along (both step step') C (s, u) as := by
  induction as generalizing s u with
  | nil =>
    refine ⟨fun _ => trivial, fun _ => ⟨s, rfl, fun m hm => ?_⟩⟩
    obtain ⟨bs, hpre, hbs⟩ := hm
    rw [List.prefix_nil.mp hpre] at hbs
    exact Option.some.inj hbs ▸ hR
  | cons a as ih =>
    obtain ⟨w, hw, hrest⟩ := run_cons_some step' h
    have hboth : ∀ {t}, step s a = some t → both step step' (s, u) a = some (t, w) := by
      intro t ht
      simp [both, ht, hw]
    constructor
    · rintro ⟨t, ht, hall⟩
      obtain ⟨m, hm, hmt⟩ := run_cons_some step ht
      have hmw : R m w := hall (m, w)
        ((visits_cons (hboth hm) (m, w)).mpr (Or.inr ⟨[], List.nil_prefix, rfl⟩))
      refine ⟨(hstep s u a w hR hw).mp ⟨m, hm, hmw⟩, fun p hp => ?_⟩
      cases (hboth hm).symm.trans hp
      exact (ih hmw hrest).mp
        ⟨t, hmt, fun n hn => hall n ((visits_cons (hboth hm) n).mpr (Or.inr hn))⟩
    · rintro ⟨hc, hC⟩
      obtain ⟨m, hm, hmw⟩ := (hstep s u a w hR hw).mpr hc
      obtain ⟨t, ht, hall⟩ := (ih hmw hrest).mpr (hC (m, w) (hboth hm))
      refine ⟨t, by rw [run_cons, hm]; exact ht, fun n hn => ?_⟩
      rcases (visits_cons (hboth hm) n).mp hn with rfl | hn
      · exact hR
      · exact hall n hn

/-- forward simulation along an abstraction function -/
theorem run_sim_fun {O : Type*} (f : St → St') (obs : Act → List O) (obs' : Act' → List O)
    (hstep : ∀ s a t, step s a = some t →
      ∃ bs, run step' (f s) bs = some (f t) ∧ bs.flatMap obs' = obs a)
    {s t : St} {as : List Act} (h : run step s as = some t) :
    ∃ bs, run step' (f s) bs = some (f t) ∧ bs.flatMap obs' = as.flatMap obs := by
  have hR : ∀ s u a t, u = f s → step s a = some t →
      ∃ bs v, run step' u bs = some v ∧ v = f t ∧ bs.flatMap obs' = obs a := by
    intro s u a t hu ha
    obtain ⟨bs, hbs, hobs⟩ := hstep s a t ha
    exact ⟨bs, f t, hu ▸ hbs, rfl, hobs⟩
  obtain ⟨bs, v, hbs, hv, hobs⟩ := run_sim (fun s u => u = f s) obs obs' hR rfl h
  exact ⟨bs, hv ▸ hbs, hobs⟩

end

end Run
