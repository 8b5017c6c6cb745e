import BlackadderJNI.Lib.Ledger
import BlackadderJNI.Lib.Run
import BlackadderJNI.Wrapper.Lifetime

/-!
# Requests and the life of their native object

* `Safe`       a request finds its native object live, no object is deleted twice, and the wrapper
               that `getWrapper` returns is connected or refuses requests;
* `Stale`      a call that hands out, or passes on, the pointer of a disconnected wrapper;
* `Inv`        `closed` tells whether the one native object is deleted;
* `Effect`     what one call can do;
* `safe_iff`   both classes are safe all along a run exactly when it has no stale call.
-/

namespace BA
namespace Wrapper
namespace Lifetime
open Run

/-! ## what the calls do to the native objects -/

def NativeCall.created : NativeCall → Option Addr
  | .createNewBa _ ret constructed => if constructed then some ret else none
  | _ => none

def NativeCall.deleted : NativeCall → Option Addr
  | .deleteBa baPtr => some baPtr
  | _ => none

def NativeCall.requested : NativeCall → Option Addr
  | .request baPtr _ => some baPtr
  | _ => none

/-- the native objects after some calls -/
def ledger (calls : List NativeCall) : Ledger Addr :=
  ⟨calls.filterMap NativeCall.created, calls.filterMap NativeCall.deleted⟩

theorem ledger_snoc (calls : List NativeCall) (c : NativeCall) :
    ledger (calls ++ [c]) = ⟨(ledger calls).acquired ++ c.created.toList,
      (ledger calls).released ++ c.deleted.toList⟩ := by
  have hone : ∀ f : NativeCall → Option Addr, [c].filterMap f = (f c).toList := by
    intro f
    cases hc : f c <;> simp [hc]
  unfold ledger
  rw [List.filterMap_append, List.filterMap_append, hone, hone]

/-- every request received the pointer of an object that was live at that moment -/
def RequestsLive (calls : List NativeCall) : Prop :=
  ∀ pre c, pre ++ [c] <+: calls → ∀ p ∈ c.requested, (ledger pre).Live p

theorem requestsLive_snoc {calls : List NativeCall} {c : NativeCall} (h : RequestsLive calls)
    (hc : ∀ p ∈ c.requested, (ledger calls).Live p) : RequestsLive (calls ++ [c]) := by
  intro pre d hpre
  rcases List.prefix_concat_iff.mp hpre with he | hpre
  · obtain ⟨rfl, e⟩ := List.append_inj' he rfl
    cases e
    exact hc
  · exact h pre d hpre

section
variable {ρ : Type} (checked : Bool) (prologue : ρ → Prologue)

/-- no request of the wrapper reaches native code -/
def Refuses (s : State) : Prop :=
  ∀ r s', step checked prologue s (.request r) = some s' → s'.calls = s.calls

structure Safe (s : State) : Prop where
  requests : RequestsLive s.calls
  deletedOnce : (ledger s.calls).released.Nodup
  wrapper : ∀ w, s.result = .wrapper w →
    (ledger s.calls).Live w.baPtr ∨ Refuses checked prologue s

def Disconnected (s : State) : Prop := ∃ w ∈ s.inst, w.closed = true

def Prologue.reaches : Prologue → Bool
  | .call _ => true
  | _ => false

/-- `getWrapper`, or a request that reaches its native call, after `disconnect` -/
def Stale (s : State) : Act ρ → Prop
  | .getWrapper _ => Disconnected s
  | .disconnect => False
  | .request r => Disconnected s ∧ (prologue r).reaches = true

end

/-- before the first wrapper there was no native call, and `closed` tells whether its object is
deleted -/
structure Inv (s : State) : Prop where
  idle : s.inst = none → s.pInstance = none ∧ s.calls = []
  object : ∀ w, s.inst = some w →
    ledger s.calls = ⟨[w.baPtr], if w.closed then [w.baPtr] else []⟩

theorem Inv.init (configured userspace : Bool) : Inv (init configured userspace) where
  idle _ := ⟨rfl, rfl⟩
  object w hw := by cases hw

theorem Inv.live {s : State} (hi : Inv s) {w : Object} (hw : s.inst = some w)
    (hc : w.closed = false) : (ledger s.calls).Live w.baPtr := by
  rw [hi.object w hw, hc]
  exact ⟨List.mem_singleton_self _, List.not_mem_nil⟩

theorem Inv.not_live {s : State} (hi : Inv s) {w : Object} (hw : s.inst = some w)
    (hc : w.closed = true) : ¬ (ledger s.calls).Live w.baPtr := by
  rw [hi.object w hw, hc]
  exact fun hlive => hlive.2 (List.mem_singleton_self _)

theorem Inv.deletedOnce {s : State} (hi : Inv s) : (ledger s.calls).released.Nodup := by
  cases hw : s.inst with
  | none =>
    rw [(hi.idle hw).2]
    exact List.nodup_nil
  | some w =>
    rw [hi.object w hw]
    split
    · exact List.nodup_singleton _
    · exact List.nodup_nil

/-! ## what one call can do -/

section
variable {ρ : Type} {checked : Bool} {prologue : ρ → Prologue}

inductive Effect (prologue : ρ → Prologue) (s s' : State) : Act ρ → Prop
  /-- the first `getWrapper` makes the object -/
  | create (fresh : Addr) (w : Object) (none : s.inst = none) (inst : s'.inst = some w)
      (closed : w.closed = false) (result : s'.result = .wrapper w)
      (calls : ∃ user, s'.calls = s.calls ++ [.createNewBa user w.baPtr true]) :
      Effect prologue s s' (.getWrapper fresh)
  | again (fresh : Addr) (w : Object) (some : s.inst = some w)
      (eq : s' = { s with result := .wrapper w }) : Effect prologue s s' (.getWrapper fresh)
  | delete (w : Object) (some : s.inst = some w) (closed : w.closed = false)
      (eq : s' = disconnect s w) : Effect prologue s s' .disconnect
  | request (r : ρ) (n : NativeRequest) (w : Object) (some : s.inst = some w)
      (call : prologue r = .call n) (eq : s' = request s w (.call n)) :
      Effect prologue s s' (.request r)
  /-- the call ends without a native call, and returns no wrapper -/
  | none {a : Act ρ} (result : Result) (nowrapper : ∀ w, result ≠ .wrapper w)
      (fresh : ¬ Stale prologue s a) (eq : s' = { s with result := result }) :
      Effect prologue s s' a

theorem construct_effect {s : State} (hi : Inv s) (hn : s.inst = none) {fresh : Addr}
    (hf : fresh ≠ 0) : Effect prologue s (construct checked s fresh) (.getWrapper fresh) := by
  unfold construct
  split
  · unfold cCreateNewBa
    rw [(hi.idle hn).1]
    dsimp only
    have hptr : (fresh == 0) = false := by simp [hf]
    rw [hptr, Bool.and_false, if_neg Bool.false_ne_true]
    exact .create fresh ⟨fresh, false⟩ hn rfl rfl rfl ⟨_, rfl⟩
  · refine .none (.throws .illegalState) (fun w hw => by cases hw) (fun hd => ?_) rfl
    obtain ⟨w, hw, _⟩ := hd
    rw [hn] at hw
    cases hw

theorem step_effect {s s' : State} {a : Act ρ} (hi : Inv s)
    (h : step checked prologue s a = some s') : Effect prologue s s' a := by
  unfold step at h
  obtain ⟨_, h⟩ := Option.ite_none_left_eq_some.mp h
  cases a with
  | getWrapper fresh =>
    obtain ⟨hf, e⟩ := Option.ite_none_left_eq_some.mp h
    cases e
    unfold getWrapper
    split
    · next hn => exact construct_effect hi hn hf
    · next w hw => exact .again fresh w hw rfl
  | disconnect =>
    obtain ⟨w, hw, e⟩ := Option.map_eq_some_iff.mp h
    cases e
    cases hc : w.closed with
    | false => exact .delete w hw hc rfl
    | true =>
      exact .none .void (fun w hw => by cases hw) id (if_pos hc)
  | request r =>
    obtain ⟨w, hw, e⟩ := Option.map_eq_some_iff.mp h
    cases e
    have hquiet : ∀ {b : Prologue}, prologue r = b → b.reaches = false →
        ¬ Stale prologue s (.request r) := by
      intro b hb hf hn
      have hr := hn.2
      rw [hb, hf] at hr
      cases hr
    cases hb : prologue r with
    | call n => exact .request r n w hw hb rfl
    | throws ex => exact .none (.throws ex) (fun w hw => by cases hw) (hquiet hb rfl) rfl
    | undefined => exact .none .undefined (fun w hw => by cases hw) (hquiet hb rfl) rfl

theorem inv_step {s s' : State} {a : Act ρ} (hi : Inv s)
    (h : step checked prologue s a = some s') : Inv s' := by
  cases step_effect hi h with
  | create fresh w hnone inst closed _ calls =>
    obtain ⟨user, hcalls⟩ := calls
    refine ⟨fun hn => ?_, fun w' hw' => ?_⟩
    · rw [inst] at hn
      cases hn
    · rw [inst] at hw'
      cases hw'
      rw [hcalls, (hi.idle hnone).2, closed]
      rfl
  | again fresh w hw eq =>
    cases eq
    exact ⟨hi.idle, hi.object⟩
  | delete w hw closed eq =>
    cases eq
    rw [show disconnect s w = _ from if_neg (by simp [closed])]
    refine ⟨fun hn => ?_, fun w' hw' => ?_⟩
    · cases hn
    · cases hw'
      rw [ledger_snoc, hi.object w hw, closed]
      rfl
  | request r n w hw _ eq =>
    cases eq
    refine ⟨fun hn => ?_, fun w' hw' => ?_⟩
    · exact absurd (hn.symm.trans hw) (by simp)
    · show ledger (s.calls ++ [_]) = _
      rw [ledger_snoc, hi.object w' hw']
      simp [NativeCall.created, NativeCall.deleted]
  | none result _ _ eq =>
    cases eq
    exact ⟨hi.idle, hi.object⟩

/-! ## safe runs -/

theorem closed_of_not_stale {s : State} {r : ρ} {n : NativeRequest} {w : Object}
    (hn : ¬ Stale prologue s (.request r)) (hw : s.inst = some w) (hb : prologue r = .call n) :
    w.closed = false := by
  apply Bool.eq_false_iff.mpr
  exact fun hc => hn ⟨⟨w, hw, hc⟩, by rw [hb]; rfl⟩

theorem safe_step {s s' : State} {a : Act ρ} (hi : Inv s) (hs : Safe checked prologue s)
    (hn : ¬ Stale prologue s a) (h : step checked prologue s a = some s') :
    Safe checked prologue s' := by
  have hi' : Inv s' := inv_step hi h
  cases step_effect hi h with
  | create fresh w _ inst closed result calls =>
    obtain ⟨user, hcalls⟩ := calls
    refine ⟨?_, hi'.deletedOnce, fun w' hw' => Or.inl ?_⟩
    · rw [hcalls]
      refine requestsLive_snoc hs.requests fun p hp => ?_
      cases hp
    · rw [result] at hw'
      cases hw'
      exact hi'.live inst closed
  | again fresh w hw eq =>
    cases eq
    have hc : w.closed = false := Bool.eq_false_iff.mpr fun hc => hn ⟨w, hw, hc⟩
    refine ⟨hs.requests, hs.deletedOnce, fun w' hw' => Or.inl ?_⟩
    cases hw'
    exact hi.live hw hc
  | delete w _ closed eq =>
    have hd : disconnect s w = _ := if_neg (by simp [closed])
    rw [eq, hd] at hi' ⊢
    refine ⟨requestsLive_snoc hs.requests fun p hp => ?_, hi'.deletedOnce, fun w' hw' => ?_⟩
    · cases hp
    · cases hw'
  | request r n w hw call eq =>
    cases eq
    have hc : w.closed = false := closed_of_not_stale hn hw call
    refine ⟨requestsLive_snoc hs.requests fun p hp => ?_, hi'.deletedOnce, fun w' hw' => ?_⟩
    · cases hp
      exact hi.live hw hc
    · cases hw'
  | none result nowrapper _ eq =>
    cases eq
    exact ⟨hs.requests, hs.deletedOnce, fun w hw => absurd hw (nowrapper w)⟩

/-- a wrapper that calls native code for some request does not refuse -/
theorem not_refuses {s : State} {w : Object} (hw : s.inst = some w)
    (hr : s.result ≠ .undefined) {r : ρ} {n : NativeRequest} (hb : prologue r = .call n) :
    ¬ Refuses checked prologue s := by
  intro href
  have hstep : step checked prologue s (.request r) = some (request s w (.call n)) := by
    unfold step
    rw [if_neg hr]
    show s.inst.map _ = _
    rw [hw, ← hb]
    rfl
  have hcalls : s.calls ++ [.request w.baPtr n] = s.calls := href r _ hstep
  simp at hcalls

theorem stale_not_safe {s s' : State} {a : Act ρ} (hreach : ∃ r n, prologue r = .call n)
    (hi : Inv s) (hn : Stale prologue s a) (h : step checked prologue s a = some s') :
    ¬ Safe checked prologue s' := by
  intro hs
  cases step_effect hi h with
  | create fresh w hnone _ _ _ _ =>
    obtain ⟨w', hw', _⟩ := hn
    rw [hnone] at hw'
    cases hw'
  | again fresh w hw eq =>
    cases eq
    obtain ⟨w', hw', hc⟩ := hn
    rw [hw] at hw'
    cases hw'
    obtain ⟨r, n, hb⟩ := hreach
    rcases hs.wrapper w rfl with hlive | href
    · exact hi.not_live hw hc hlive
    · exact not_refuses (s := { s with result := .wrapper w }) hw nofun hb href
  | delete => exact hn
  | request r n w hw call eq =>
    cases eq
    obtain ⟨⟨w', hw', hc⟩, _⟩ := hn
    rw [hw] at hw'
    cases hw'
    exact hi.not_live hw hc (hs.requests s.calls _ (List.prefix_refl _) w.baPtr rfl)
  | none _ _ fresh _ => exact fresh hn

theorem class_safe_iff (hreach : ∃ r n, prologue r = .call n) {configured userspace : Bool}
    {as : List (Act ρ)} {s : State}
    (h : run (step checked prologue) (init configured userspace) as = some s) :
    (∀ m, Visits (step checked prologue) (init configured userspace) as m →
        Safe checked prologue m) ↔
      Along (step checked prologue) (fun t a => ¬ Stale prologue t a)
        (init configured userspace) as := by
  have hinit : Safe checked prologue (init configured userspace) := by
    refine ⟨fun pre c hpre => ?_, List.nodup_nil, fun w hw => by cases hw⟩
    exact absurd (List.prefix_nil.mp hpre) (by simp)
  exact visits_iff_along (fun _ _ _ => inv_step) (fun _ _ _ => safe_step)
    (fun _ _ _ hi hn ha => stale_not_safe hreach hi (not_not.mp hn) ha)
    (Inv.init configured userspace) hinit h

end

/-- **When no request reaches a deleted object.**  For either class, in every run of Java calls:
requests find their object live, no object is deleted twice and `getWrapper` returns nothing
stale, exactly when after a `disconnect` neither `getWrapper` is called nor a request that
reaches its native call. -/
theorem safe_iff (configured userspace : Bool) :
    (∀ as s, run BAWrapperNB.step (init configured userspace) as = some s →
      ((∀ m, Visits BAWrapperNB.step (init configured userspace) as m →
          Safe true BAWrapperNB.prologue m) ↔
        Along BAWrapperNB.step (fun t a => ¬ Stale BAWrapperNB.prologue t a)
          (init configured userspace) as)) ∧
    (∀ as s, run BAWrapper.step (init configured userspace) as = some s →
      ((∀ m, Visits BAWrapper.step (init configured userspace) as m →
          Safe false BAWrapper.prologue m) ↔
        Along BAWrapper.step (fun t a => ¬ Stale BAWrapper.prologue t a)
          (init configured userspace) as)) := by
  constructor
  · intro as s h
    have hreach : ∃ r n, BAWrapperNB.prologue r = .call n :=
      ⟨.publishData none 0 none none 0, _, rfl⟩
    exact class_safe_iff hreach h
  · intro as s h
    have hreach : ∃ r n, BAWrapper.prologue r = .call n :=
      ⟨.item .publishScope ⟨none, none, 0, none⟩, _, rfl⟩
    exact class_safe_iff hreach h

/-! ## a request after `disconnect` -/

/-- scope 0, below the root -/
def rootScope : ItemArgs := ⟨some (List.replicate 8 0), some [], 0, none⟩

def afterDisconnect : List (Act BAWrapperNB.Request) :=
  [.getWrapper 64, .disconnect, .request (.item .publishScope rootScope)]

theorem deleted_object_used :
    ¬ ∀ as s, run BAWrapperNB.step (init true true) as = some s →
      Safe true BAWrapperNB.prologue s := by
  intro hall
  obtain ⟨s, hrun, hcalls⟩ : ∃ s,
      run BAWrapperNB.step (init true true) afterDisconnect = some s ∧
      s.calls = [.createNewBa 1 64 true, .deleteBa 64] ++
        [.request 64 (.item .publishScope rootScope)] := ⟨_, rfl, rfl⟩
  have hlive := (hall afterDisconnect s hrun).requests _ _
    (by rw [hcalls]) 64 rfl
  exact absurd hlive (by decide)

instance (s : State) : Decidable (Disconnected s) :=
  inferInstanceAs (Decidable (∃ w ∈ s.inst, w.closed = true))

instance {ρ : Type} (prologue : ρ → Prologue) (s : State) : ∀ a, Decidable (Stale prologue s a)
  | .getWrapper _ => inferInstanceAs (Decidable (Disconnected s))
  | .disconnect => isFalse id
  | .request r => inferInstanceAs (Decidable (Disconnected s ∧ (prologue r).reaches = true))

/-- a request, two calls of `disconnect`, and a request that throws -/
def beforeDisconnect : List (Act BAWrapper.Request) :=
  [.getWrapper 64, .request (.item .publishScope rootScope), .disconnect, .disconnect,
    .request (.publishData (some []) 0 none none)]

theorem safe_iff_before :
    (∀ m, Visits BAWrapperNB.step (init true true) [.getWrapper 64, .disconnect] m →
      Safe true BAWrapperNB.prologue m) ∧
    ∀ m, Visits BAWrapper.step (init true true) beforeDisconnect m →
      Safe false BAWrapper.prologue m := by
  obtain ⟨s, hrun⟩ : ∃ s,
      run BAWrapperNB.step (init true true) [.getWrapper 64, .disconnect] = some s := ⟨_, rfl⟩
  obtain ⟨s', hrun'⟩ : ∃ s, run BAWrapper.step (init true true) beforeDisconnect = some s :=
    ⟨_, rfl⟩
  exact ⟨((safe_iff true true).1 _ s hrun).mpr (by decide),
    ((safe_iff true true).2 _ s' hrun').mpr (by decide)⟩

end Lifetime
end Wrapper
end BA
