import BlackadderJNI.Lib.Run
import Mathlib.Logic.Function.Basic

/-!
# Reentrant monitors

Threads that enter and leave monitors and do other things in between, which may need a monitor.
A thread that executes an instruction may get new ones to execute first, so a block can call
code that enters monitors of its own.

* `Instr`, `depth`   the instructions, and how often a code leaves a monitor more than it enters it;
* `Guarded`          a code that needs a monitor only where it will leave it;
* `Monitors T L X`   the owners of the monitors, and the code that each thread still has to execute;
* `Sound`            a thread has entered exactly the monitors it has still to leave;
* `Sound.owner`, `Sound.exclusive`   an instruction that needs a monitor is executed by its owner,
                     and by one thread at a time;
* `exists_ready`     no deadlock while one thread at most enters a monitor inside another.
-/

inductive Instr (L X : Type*) where
  | enter (l : L)
  | leave (l : L)
  | plain (x : X)

namespace Instr
variable {L X : Type*} [DecidableEq L]

def depth (l : L) : List (Instr L X) → Nat
  | [] => 0
  | .enter l' :: c => if l' = l then depth l c - 1 else depth l c
  | .leave l' :: c => if l' = l then depth l c + 1 else depth l c
  | .plain _ :: c => depth l c

/-- `guard x` is the monitor that `x` needs -/
def Guarded (guard : X → Option L) : List (Instr L X) → Prop
  | [] => True
  | .enter l :: c => 0 < depth l c ∧ Guarded guard c
  | .leave _ :: c => Guarded guard c
  | .plain x :: c => (∀ l ∈ guard x, 0 < depth l c) ∧ Guarded guard c

/-- code that leaves all monitors it enters, and can stand before any other -/
structure Balanced (guard : X → Option L) (c : List (Instr L X)) : Prop where
  depth : ∀ l rest, depth l (c ++ rest) = Instr.depth l rest
  guarded : ∀ rest, Guarded guard rest → Guarded guard (c ++ rest)

theorem Balanced.nil (guard : X → Option L) : Balanced guard ([] : List (Instr L X)) :=
  ⟨fun _ _ => rfl, fun _ h => h⟩

theorem Balanced.append {guard : X → Option L} {c c' : List (Instr L X)} (h : Balanced guard c)
    (h' : Balanced guard c') : Balanced guard (c ++ c') := by
  refine ⟨fun l rest => ?_, fun rest hr => ?_⟩
  · rw [List.append_assoc, h.depth, h'.depth]
  · rw [List.append_assoc]
    exact h.guarded _ (h'.guarded rest hr)

theorem Balanced.flatMap {guard : X → Option L} {α : Type*} {f : α → List (Instr L X)}
    (h : ∀ a, Balanced guard (f a)) (as : List α) : Balanced guard (as.flatMap f) := by
  induction as with
  | nil => exact Balanced.nil guard
  | cons a as ih =>
    rw [List.flatMap_cons]
    exact (h a).append ih

theorem Balanced.plain {guard : X → Option L} {x : X} (hx : guard x = none) :
    Balanced guard [.plain x] := by
  refine ⟨fun _ _ => rfl, fun rest hr => ⟨fun l hl => ?_, hr⟩⟩
  rw [hx] at hl
  cases hl

/-- a block that does one thing under a monitor -/
def synchronized (l : L) (x : X) : List (Instr L X) := [.enter l, .plain x, .leave l]

theorem Balanced.synchronized {guard : X → Option L} {l : L} {x : X} (hx : guard x = some l) :
    Balanced guard (synchronized l x) := by
  have hin : ∀ rest : List (Instr L X), 0 < Instr.depth l (.leave l :: rest) := by
    intro rest
    simp [Instr.depth]
  refine ⟨fun l' rest => ?_, fun rest hr => ⟨hin rest, fun l' hl' => ?_, hr⟩⟩
  · show Instr.depth l' (.enter l :: .plain x :: .leave l :: rest) = _
    simp only [Instr.depth]
    split
    · rw [Nat.add_sub_cancel]
    · rfl
  · rw [hx] at hl'
    cases hl'
    exact hin rest

end Instr

open Instr

structure Monitors (T L X : Type*) where
  /-- the thread that has entered a monitor, and how often -/
  owner : L → Option (T × Nat)
  code : T → List (Instr L X)

namespace Monitors
variable {T L X : Type*}

inductive Act (T L X : Type*) where
  /-- a thread that has nothing to do begins with `c` -/
  | start (t : T) (c : List (Instr L X))
  | enter (t : T)
  | leave (t : T)
  /-- the next instruction is a plain one, and `c` comes next -/
  | exec (t : T) (c : List (Instr L X))

def init : Monitors T L X := ⟨fun _ => none, fun _ => []⟩

section
variable [DecidableEq T] [DecidableEq L]

/-- entering waits for the owner; only the owner leaves -/
def step (s : Monitors T L X) : Act T L X → Option (Monitors T L X)
  | .start t c =>
    match s.code t with
    | [] => some { s with code := Function.update s.code t c }
    | _ => none
  | .enter t =>
    match s.code t with
    | .enter l :: rest =>
      match s.owner l with
      | none => some ⟨Function.update s.owner l (some (t, 1)), Function.update s.code t rest⟩
      | some (u, n) =>
        if u = t then
          some ⟨Function.update s.owner l (some (t, n + 1)), Function.update s.code t rest⟩
        else none
    | _ => none
  | .leave t =>
    match s.code t with
    | .leave l :: rest =>
      match s.owner l with
      | none => none
      | some (u, n) =>
        if u = t then
          some ⟨Function.update s.owner l (if n = 1 then none else some (t, n - 1)),
            Function.update s.code t rest⟩
        else none
    | _ => none
  | .exec t c =>
    match s.code t with
    | .plain _ :: rest => some { s with code := Function.update s.code t (c ++ rest) }
    | _ => none

/-- how often `t` has entered `l` -/
def held (s : Monitors T L X) (l : L) (t : T) : Nat :=
  match s.owner l with
  | some (u, n) => if u = t then n else 0
  | none => 0

/-- the new code keeps the balance -/
def Fits (guard : X → Option L) (s : Monitors T L X) : Act T L X → Prop
  | .start _ c => Balanced guard c
  | .exec t c => ∀ x rest, s.code t = .plain x :: rest →
      (∀ l, depth l (c ++ rest) = depth l rest) ∧ Guarded guard (c ++ rest)
  | _ => True

structure Sound (guard : X → Option L) (s : Monitors T L X) : Prop where
  held : ∀ l t, depth l (s.code t) = s.held l t
  positive : ∀ l, ∀ p ∈ s.owner l, 0 < p.2
  guarded : ∀ t, Guarded guard (s.code t)

variable {guard : X → Option L}

theorem Sound.init : Sound guard (init : Monitors T L X) :=
  ⟨fun _ _ => rfl, nofun, fun _ => trivial⟩

omit [DecidableEq L] in
theorem held_of_owner {s : Monitors T L X} {l : L} {t : T} {n : Nat}
    (h : s.owner l = some (t, n)) (u : T) : s.held l u = if t = u then n else 0 := by
  rw [held, h]

omit [DecidableEq L] in
theorem held_of_free {s : Monitors T L X} {l : L} (h : s.owner l = none) (u : T) :
    s.held l u = 0 := by
  rw [held, h]

omit [DecidableEq L] in
theorem owner_of_held {s : Monitors T L X} {l : L} {t : T} (h : 0 < s.held l t) :
    s.owner l = some (t, s.held l t) := by
  cases ho : s.owner l with
  | none =>
    rw [held_of_free ho] at h
    cases h
  | some p =>
    obtain ⟨u, n⟩ := p
    rw [held_of_owner ho] at h ⊢
    split at h
    · next hu => rw [if_pos hu, hu]
    · cases h

/-- the code of one thread changes, and the owner of one monitor -/
theorem Sound.move {s : Monitors T L X} (hs : Sound guard s) {t : T} {l : L}
    {c : List (Instr L X)} {o : Option (T × Nat)} (hmine : ∀ p ∈ s.owner l, p.1 = t)
    (ho : ∀ p ∈ o, p.1 = t ∧ 0 < p.2) (hl : depth l c = (o.map Prod.snd).getD 0)
    (hother : ∀ l', l' ≠ l → depth l' c = depth l' (s.code t)) (hg : Guarded guard c) :
    Sound guard ⟨Function.update s.owner l o, Function.update s.code t c⟩ := by
  have hfree : ∀ u, u ≠ t → s.held l u = 0 := by
    intro u hu
    by_contra hne
    have hown := owner_of_held (Nat.pos_of_ne_zero hne)
    exact hu (hmine _ hown)
  refine ⟨fun l' u => ?_, fun l' p hp => ?_, fun u => ?_⟩
  · unfold Monitors.held
    dsimp only
    rcases eq_or_ne l' l with rfl | hl'
    · rw [Function.update_self]
      rcases eq_or_ne u t with rfl | hu
      · rw [Function.update_self, hl]
        cases o with
        | none => rfl
        | some p => exact (if_pos (ho p rfl).1).symm
      · rw [Function.update_of_ne hu, hs.held, hfree u hu]
        cases o with
        | none => rfl
        | some p => exact (if_neg fun h => hu (h.symm.trans (ho p rfl).1)).symm
    · rw [Function.update_of_ne hl']
      rcases eq_or_ne u t with rfl | hu
      · rw [Function.update_self, hother l' hl', hs.held]
        rfl
      · rw [Function.update_of_ne hu, hs.held]
        rfl
  · rcases eq_or_ne l' l with rfl | hl'
    · rw [Option.mem_def] at hp
      dsimp only at hp
      rw [Function.update_self] at hp
      exact (ho p hp).2
    · rw [Option.mem_def] at hp
      dsimp only at hp
      rw [Function.update_of_ne hl'] at hp
      exact hs.positive l' p hp
  · show Guarded guard (Function.update s.code t c u)
    rcases eq_or_ne u t with rfl | hu
    · rwa [Function.update_self]
    · rw [Function.update_of_ne hu]
      exact hs.guarded u

/-- only the code of one thread changes -/
theorem Sound.recode {s : Monitors T L X} (hs : Sound guard s) {t : T} {c : List (Instr L X)}
    (hd : ∀ l, depth l c = depth l (s.code t)) (hg : Guarded guard c) :
    Sound guard { s with code := Function.update s.code t c } := by
  refine ⟨fun l u => ?_, hs.positive, fun u => ?_⟩
  · show depth l (Function.update s.code t c u) = s.held l u
    rcases eq_or_ne u t with rfl | hu
    · rw [Function.update_self, hd, hs.held]
    · rw [Function.update_of_ne hu, hs.held]
  · show Guarded guard (Function.update s.code t c u)
    rcases eq_or_ne u t with rfl | hu
    · rwa [Function.update_self]
    · rw [Function.update_of_ne hu]
      exact hs.guarded u

/-! ## the steps -/

/-- what a step can do -/
inductive Effect (s s' : Monitors T L X) : Act T L X → Prop
  | start (t : T) (c : List (Instr L X)) (idle : s.code t = [])
      (eq : s' = { s with code := Function.update s.code t c }) : Effect s s' (.start t c)
  | enter (t : T) (l : L) (rest : List (Instr L X)) (code : s.code t = .enter l :: rest)
      (mine : ∀ p ∈ s.owner l, p.1 = t)
      (eq : s' = ⟨Function.update s.owner l (some (t, s.held l t + 1)),
        Function.update s.code t rest⟩) : Effect s s' (.enter t)
  | leave (t : T) (l : L) (n : Nat) (rest : List (Instr L X)) (code : s.code t = .leave l :: rest)
      (owner : s.owner l = some (t, n))
      (eq : s' = ⟨Function.update s.owner l (if n = 1 then none else some (t, n - 1)),
        Function.update s.code t rest⟩) : Effect s s' (.leave t)
  | exec (t : T) (c : List (Instr L X)) (x : X) (rest : List (Instr L X))
      (code : s.code t = .plain x :: rest)
      (eq : s' = { s with code := Function.update s.code t (c ++ rest) }) :
      Effect s s' (.exec t c)

theorem step_effect {s s' : Monitors T L X} {a : Act T L X} (h : step s a = some s') :
    Effect s s' a := by
  cases a with
  | start t c =>
    dsimp only [step] at h
    split at h
    · next hidle => exact .start t c hidle (Option.some.inj h).symm
    · cases h
  | enter t =>
    dsimp only [step] at h
    split at h
    · next l rest hcode =>
      split at h
      · next ho =>
        refine .enter t l rest hcode (fun p hp => absurd (ho.symm.trans hp) nofun) ?_
        rw [held_of_free ho]
        exact (Option.some.inj h).symm
      · next u n ho =>
        split at h
        · next hu =>
          refine .enter t l rest hcode (fun p hp => ?_) ?_
          · rw [← Option.some.inj (ho.symm.trans hp)]
            exact hu
          · rw [held_of_owner ho, if_pos hu]
            exact (Option.some.inj h).symm
        · cases h
    · cases h
  | leave t =>
    dsimp only [step] at h
    split at h
    · next l rest hcode =>
      split at h
      · cases h
      · next u n ho =>
        split at h
        · next hu =>
          subst hu
          exact .leave _ l n rest hcode ho (Option.some.inj h).symm
        · cases h
    · cases h
  | exec t c =>
    dsimp only [step] at h
    split at h
    · next x rest hcode => exact .exec t c x rest hcode (Option.some.inj h).symm
    · cases h

theorem Sound.step {s s' : Monitors T L X} {a : Act T L X} (hs : Sound guard s)
    (h : step s a = some s') (hfit : Fits guard s a) : Sound guard s' := by
  cases step_effect h with
  | start t c idle eq =>
    rw [eq]
    have hfit' : Balanced guard c := hfit
    refine hs.recode (fun l => ?_) ?_
    · have hd := hfit'.depth l []
      rw [List.append_nil] at hd
      rw [hd, idle]
    · have hg := hfit'.guarded [] trivial
      rwa [List.append_nil] at hg
  | enter t l rest code mine eq =>
    rw [eq]
    have hd := hs.held l t
    have hg := hs.guarded t
    rw [code] at hd hg
    refine hs.move mine ?_ ?_ (fun l' hl' => ?_) hg.2
    · rintro p ⟨⟩
      exact ⟨rfl, Nat.succ_pos _⟩
    · have hpos : 0 < depth l rest := hg.1
      simp only [depth, if_true] at hd
      show depth l rest = s.held l t + 1
      omega
    · rw [code, depth, if_neg hl'.symm]
  | leave t l n rest code owner eq =>
    rw [eq]
    have hd := hs.held l t
    have hg := hs.guarded t
    rw [code] at hd hg
    rw [held_of_owner owner, if_pos rfl, depth, if_pos rfl] at hd
    refine hs.move (fun p hp => ?_) ?_ ?_ (fun l' hl' => ?_) hg
    · rw [← Option.some.inj (owner.symm.trans hp)]
    · split
      · rintro p ⟨⟩
      · rintro p ⟨⟩
        exact ⟨rfl, by dsimp only; omega⟩
    · split
      · show depth l rest = 0
        omega
      · show depth l rest = n - 1
        omega
    · rw [code, depth, if_neg hl'.symm]
  | exec t c x rest code eq =>
    rw [eq]
    obtain ⟨hd, hg⟩ := hfit x rest code
    refine hs.recode (fun l => ?_) hg
    rw [hd, code, depth]

/-! ## the code -/

def Act.thread : Act T L X → T
  | .start t _ => t
  | .enter t => t
  | .leave t => t
  | .exec t _ => t

theorem code_other {s s' : Monitors T L X} {a : Act T L X} (h : step s a = some s') {u : T}
    (hu : u ≠ a.thread) : s'.code u = s.code u := by
  cases step_effect h with
  | start t c _ eq => exact eq ▸ Function.update_of_ne hu _ _
  | enter t l rest _ _ eq => exact eq ▸ Function.update_of_ne hu _ _
  | leave t l n rest _ _ eq => exact eq ▸ Function.update_of_ne hu _ _
  | exec t c x rest _ eq => exact eq ▸ Function.update_of_ne hu _ _

theorem code_start {s s' : Monitors T L X} {t : T} {c : List (Instr L X)}
    (h : step s (.start t c) = some s') : s.code t = [] ∧ s'.code t = c := by
  cases step_effect h with
  | start _ _ idle eq => exact ⟨idle, eq ▸ Function.update_self t _ _⟩

theorem code_enter {s s' : Monitors T L X} {t : T} (h : step s (.enter t) = some s') :
    ∃ l, s.code t = .enter l :: s'.code t := by
  cases step_effect h with
  | enter _ l rest code _ eq =>
    have hrest : s'.code t = rest := eq ▸ Function.update_self t _ _
    exact ⟨l, hrest ▸ code⟩

theorem code_leave {s s' : Monitors T L X} {t : T} (h : step s (.leave t) = some s') :
    ∃ l, s.code t = .leave l :: s'.code t := by
  cases step_effect h with
  | leave _ l n rest code _ eq =>
    have hrest : s'.code t = rest := eq ▸ Function.update_self t _ _
    exact ⟨l, hrest ▸ code⟩

theorem code_exec {s s' : Monitors T L X} {t : T} {c : List (Instr L X)} {x : X}
    {rest : List (Instr L X)} (h : step s (.exec t c) = some s')
    (hcode : s.code t = .plain x :: rest) : s'.code t = c ++ rest := by
  cases step_effect h with
  | exec _ _ y rest' code eq =>
    cases hcode.symm.trans code
    exact eq ▸ Function.update_self t _ _

/-! ## who is where -/

/-- **An instruction that needs a monitor is executed by its owner.** -/
theorem Sound.owner {s : Monitors T L X} (hs : Sound guard s) {t : T} {x : X} {l : L}
    {rest : List (Instr L X)} (hcode : s.code t = .plain x :: rest) (hx : guard x = some l) :
    ∃ n, s.owner l = some (t, n) := by
  have hg := hs.guarded t
  rw [hcode] at hg
  have hd := hs.held l t
  rw [hcode, depth] at hd
  have hpos : 0 < depth l rest := hg.1 l hx
  exact ⟨_, owner_of_held (hd ▸ hpos)⟩

/-- so two threads never execute instructions that need the same one -/
theorem Sound.exclusive {s : Monitors T L X} (hs : Sound guard s) {t u : T} {x y : X} {l : L}
    {rest rest' : List (Instr L X)} (ht : s.code t = .plain x :: rest) (hx : guard x = some l)
    (hu : s.code u = .plain y :: rest') (hy : guard y = some l) : t = u := by
  obtain ⟨n, hn⟩ := hs.owner ht hx
  obtain ⟨m, hm⟩ := hs.owner hu hy
  exact congrArg Prod.fst (Option.some.inj (hn.symm.trans hm))

/-! ## progress -/

/-- the thread has something to do, and no other one owns the monitor it enters -/
def Ready (s : Monitors T L X) (t : T) : Prop :=
  s.code t ≠ [] ∧ ∀ l rest, s.code t = .enter l :: rest → ∀ p ∈ s.owner l, p.1 = t

theorem Ready.enter {s : Monitors T L X} {t : T} {l : L} {rest : List (Instr L X)}
    (h : Ready s t) (hcode : s.code t = .enter l :: rest) : (step s (.enter t)).isSome := by
  dsimp only [step]
  rw [hcode]
  dsimp only
  cases ho : s.owner l with
  | none => rfl
  | some p =>
    dsimp only
    rw [if_pos (h.2 l rest hcode p ho)]
    rfl

/-- leaving is always possible -/
theorem Sound.leave {s : Monitors T L X} (hs : Sound guard s) {t : T} {l : L}
    {rest : List (Instr L X)} (hcode : s.code t = .leave l :: rest) :
    (Monitors.step s (.leave t)).isSome := by
  have hd := hs.held l t
  rw [hcode, depth, if_pos rfl] at hd
  have ho : s.owner l = some (t, s.held l t) := owner_of_held (hd ▸ Nat.succ_pos _)
  dsimp only [Monitors.step]
  rw [hcode]
  dsimp only
  rw [ho]
  dsimp only
  rw [if_pos rfl]
  rfl

/-- it enters a monitor only while it has entered none -/
def Flat (c : List (Instr L X)) : Prop :=
  ∀ l rest, c = .enter l :: rest → ∀ l', depth l' c = 0

/-- **No deadlock**: if all threads but one enter monitors one at a time, some thread is ready
as long as one has something to do. -/
theorem exists_ready {s : Monitors T L X} (hs : Sound guard s) (d : T)
    (hflat : ∀ t, t ≠ d → Flat (s.code t)) {t : T} (ht : s.code t ≠ []) : ∃ u, Ready s u := by
  -- an owner that is not `d` has entered a monitor, so it does not wait for another one
  have howner : ∀ l p, s.owner l = some p → p.1 ≠ d → Ready s p.1 := by
    intro l p hp hne
    have hpos : 0 < depth l (s.code p.1) := by
      rw [hs.held, held_of_owner (t := p.1) (n := p.2) hp, if_pos rfl]
      exact hs.positive l p hp
    refine ⟨fun hnil => ?_, fun l' rest hcode => ?_⟩
    · rw [hnil] at hpos
      cases hpos
    · exact absurd (hflat p.1 hne l' rest hcode l) (by omega)
  by_contra hno
  have hblocked : ∀ u, s.code u ≠ [] → ∃ l rest p, s.code u = .enter l :: rest ∧
      s.owner l = some p ∧ p.1 ≠ u := by
    intro u hu
    by_contra hnb
    refine hno ⟨u, hu, fun l rest hcode p hp => ?_⟩
    by_contra hne
    exact hnb ⟨l, rest, p, hcode, hp, hne⟩
  obtain ⟨l, rest, p, _, hp, hpt⟩ := hblocked t ht
  by_cases hpd : p.1 = d
  · have hd : s.code d ≠ [] := by
      intro hnil
      have hheld := hs.held l d
      rw [hnil, held_of_owner (t := p.1) (n := p.2) hp, if_pos hpd] at hheld
      have hpos := hs.positive l p hp
      simp only [depth] at hheld
      omega
    obtain ⟨l', _, q, _, hq, hqd⟩ := hblocked d hd
    exact hno ⟨q.1, howner l' q hq hqd⟩
  · exact hno ⟨p.1, howner l p hp hpd⟩

end

end Monitors
