import BlackadderJNI.Callback.Interleave
import BlackadderJNI.Callback.LongestMatch

/-!
# A stream of events among registrations by other threads

One thread runs `eventReceived` for one event after the other; any number of threads register and
unregister, between any two synchronized blocks.

* `State`, `step`        the tables and the event thread, over the steps of one call;
* `invoked`              the handler object whose method a dispatch step calls;
* `Cleared h ops`        every registration of `h` was followed by the call that undoes it;
* `invoked_registered`   a handler is called under a registration that was not undone;
* `unregistered_not_invoked`   so a cleared handler is not called until it is registered again.
-/

namespace BA
namespace HashClassifierCallback
open Run Replay

namespace Dispatch
variable {H : Type}

/-- the handlers of both kinds are objects of one type; the event thread is idle when its last
call has returned -/
structure State (H : Type) where
  call : Call H H
  event : BAEvent

inductive Act (H : Type) where
  | eventReceived (event : BAEvent)
  | block (a : HashClassifierCallback.Act H H)

def init (event : BAEvent) : State H := ⟨⟨new, .returned .noHandler⟩, event⟩

def step (scopeIdLen : Nat) (s : State H) : Act H → Option (State H)
  | .eventReceived event =>
    match s.call.pc with
    | .returned _ => some ⟨{ s.call with pc := .start }, event⟩
    | _ => none
  | .block a =>
    (HashClassifierCallback.step scopeIdLen s.event s.call a).map fun call => { s with call }

/-- the handler object that a delivery calls -/
def handlerOf : Delivery H H → Option H
  | .publishedData handler => some handler
  | .control handler _ => some handler
  | .noHandler => none
  | .nullPointerException => none

/-- the handler object that a step calls, inside its synchronized block -/
def invoked (scopeIdLen : Nat) (s : State H) : Act H → Option H
  | .block .dataBlock => dataBlock s.call.tables.dataHandlerMap s.event
  | .block .controlBlock =>
    handlerOf (controlBlock scopeIdLen s.call.tables.controlEventHandlerLPM s.event)
  | _ => none

/-- a step that makes `eventReceived` return calls the handler of the delivery -/
theorem invoked_returned {k : Nat} {s t : State H} {a : HashClassifierCallback.Act H H}
    {out : Delivery H H} (hs : ∀ o, s.call.pc ≠ .returned o) (h : step k s (.block a) = some t)
    (ht : t.call.pc = .returned out) : invoked k s (.block a) = handlerOf out := by
  obtain ⟨call, hcall, rfl⟩ := Option.map_eq_some_iff.mp h
  cases a with
  | other o =>
    cases hcall
    exact absurd ht (hs out)
  | dataBlock =>
    dsimp only [HashClassifierCallback.step] at hcall
    split at hcall
    · split at hcall
      · next handler hd =>
        cases hcall
        cases ht
        exact hd
      · cases hcall
        cases ht
    · cases hcall
  | controlBlock =>
    dsimp only [HashClassifierCallback.step] at hcall
    split at hcall
    · cases hcall
      cases ht
      rfl
    · cases hcall

/-- the registrations among the steps -/
def Act.op : Act H → Option (Op H H)
  | .block (.other o) => some o
  | _ => none

def opsOf (as : List (Act H)) : List (Op H H) := as.filterMap Act.op

/-- the step registers `h` -/
def Names (h : H) : Op H H → Prop
  | .registerDataEventHandler _ handler => handler = h
  | .registerControlEventHandler _ handler => handler = h
  | _ => False

/-- the call that takes a registration back -/
def undo : Op H H → Op H H
  | .registerDataEventHandler rid _ => .unregisterDataEventHandler rid
  | .registerControlEventHandler pre _ => .unregisterControlEventHandler pre
  | o => o

/-- every registration of `h` was followed by the call that takes it back -/
def Cleared (h : H) : List (Op H H) → Prop
  | [] => True
  | o :: rest => (Names h o → undo o ∈ rest) ∧ Cleared h rest

theorem Cleared.undone {h : H} {pre post : List (Op H H)} {o : Op H H}
    (hc : Cleared h (pre ++ o :: post)) (hn : Names h o) : undo o ∈ post := by
  induction pre with
  | nil => exact hc.1 hn
  | cons p pre ih => exact ih hc.2

theorem Cleared.append {h : H} {ops more : List (Op H H)} (hc : Cleared h ops)
    (hno : ∀ o ∈ more, ¬ Names h o) : Cleared h (ops ++ more) := by
  induction ops with
  | cons o ops ih => exact ⟨fun hn => List.mem_append_left _ (hc.1 hn), ih hc.2⟩
  | nil =>
    show Cleared h more
    induction more with
    | nil => trivial
    | cons o more ih =>
      exact ⟨fun hn => absurd hn (hno o List.mem_cons_self),
        ih fun q hq => hno q (List.mem_cons_of_mem o hq)⟩

/-! ## the tables along a run -/

theorem step_tables {k : Nat} {s t : State H} {a : Act H} (h : step k s a = some t) :
    t.call.tables = a.op.toList.foldl (apply k) s.call.tables := by
  cases a with
  | eventReceived event =>
    dsimp only [step] at h
    split at h
    · cases h
      rfl
    · cases h
  | block a =>
    obtain ⟨call, hcall, rfl⟩ := Option.map_eq_some_iff.mp h
    cases a with
    | other o =>
      cases hcall
      rfl
    | dataBlock =>
      dsimp only [HashClassifierCallback.step] at hcall
      split at hcall
      · split at hcall
        · cases hcall
          rfl
        · cases hcall
          rfl
      · cases hcall
    | controlBlock =>
      dsimp only [HashClassifierCallback.step] at hcall
      split at hcall
      · cases hcall
        rfl
      · cases hcall

theorem opsOf_snoc (as : List (Act H)) (a : Act H) :
    opsOf (as ++ [a]) = opsOf as ++ a.op.toList := by
  cases h : a.op with
  | none => simp [opsOf, h]
  | some o => simp [opsOf, h]

theorem run_tables {k : Nat} {event : BAEvent} {as : List (Act H)} {s : State H}
    (h : run (step k) (init event) as = some s) : s.call.tables = after k (opsOf as) := by
  refine run_hist (I := fun t done => t.call.tables = after k (opsOf done)) rfl
    (fun t done a u ht ha => ?_) h
  rw [step_tables ha, ht, opsOf_snoc]
  simp [after]

/-! ## what a dispatch step calls -/

/-- an element of a filtered list, and what stands behind it -/
theorem filterMap_split {α β : Type} {f : α → Option β} {l : List α} {pre post : List β} {w : β}
    (h : l.filterMap f = pre ++ w :: post) :
    ∃ before o rest, l = before ++ o :: rest ∧ f o = some w ∧ rest.filterMap f = post := by
  obtain ⟨front, back, rfl, _, hback⟩ := List.filterMap_eq_append_iff.mp h
  obtain ⟨mid, o, rest, rfl, _, ho, hrest⟩ := List.filterMap_eq_cons_iff.mp hback
  exact ⟨front ++ mid, o, rest, by simp, ho, hrest⟩

/-- a handler in the data table was registered under the hash, and no call on the hash followed -/
theorem data_registered {k : Nat} {ops : List (Op H H)} {hash : Int32} {h : H}
    (hl : (after k ops).dataHandlerMap.lookup hash = some h) :
    ∃ pre rid post, ops = pre ++ .registerDataEventHandler rid h :: post ∧
      .unregisterDataEventHandler rid ∉ post := by
  rw [after_data] at hl
  obtain ⟨wpre, w, wpost, hw, hkey, hval, hlast⟩ := replay_last _ _ hl
  obtain ⟨pre, o, post, rfl, ho, hpost⟩ := filterMap_split hw
  cases o with
  | registerDataEventHandler rid handler =>
    cases ho
    cases hval
    refine ⟨pre, rid, post, rfl, fun hmem => ?_⟩
    have hin : ((rid, none) : Bytes × Option H) ∈ wpost := by
      rw [← hpost]
      exact List.mem_filterMap.mpr ⟨_, hmem, rfl⟩
    exact hlast _ hin hkey
  | unregisterDataEventHandler rid =>
    cases ho
    cases hval
  | _ => cases ho

/-- a handler that `searchPrefix` finds was registered, and no call on its hash path followed -/
theorem control_registered {k : Nat} {ops : List (Op H H)} {id : Bytes} {h : H}
    (hs : (after k ops).controlEventHandlerLPM.searchPrefix k id = some h) :
    ∃ pre p post, ops = pre ++ .registerControlEventHandler p h :: post ∧
      .unregisterControlEventHandler p ∉ post := by
  rw [after_control] at hs
  obtain ⟨n, _, hn⟩ := (LPMTree.after_canonical k (controlOps ops)).search k id
  rw [hn] at hs
  obtain ⟨wpre, w, wpost, hw, hkey, hval, hlast⟩ := replay_last _ _ hs
  obtain ⟨pre, o, post, rfl, ho, hpost⟩ := filterMap_split hw
  cases o with
  | registerControlEventHandler p handler =>
    cases ho
    cases hval
    refine ⟨pre, p, post, rfl, fun hmem => ?_⟩
    have hin : (.delete p : LPMTree.Op H) ∈ wpost := by
      rw [← hpost]
      exact List.mem_filterMap.mpr ⟨_, hmem, rfl⟩
    exact hlast _ hin hkey
  | unregisterControlEventHandler p =>
    cases ho
    cases hval
  | _ => cases ho

/-- **A handler is called under a registration that was not taken back.** -/
theorem invoked_registered {k : Nat} {s : State H} {ops : List (Op H H)}
    (ht : s.call.tables = after k ops) {a : Act H} {h : H} (hi : invoked k s a = some h) :
    ¬ Cleared h ops := by
  intro hc
  cases a with
  | eventReceived event => cases hi
  | block a =>
    cases a with
    | other o => cases hi
    | dataBlock =>
      dsimp only [invoked, dataBlock] at hi
      rw [ht] at hi
      obtain ⟨_, hl⟩ := Option.ite_none_right_eq_some.mp hi
      obtain ⟨pre, rid, post, e, hno⟩ := data_registered hl
      exact hno ((e ▸ hc).undone rfl)
    | controlBlock =>
      dsimp only [invoked, controlBlock] at hi
      rw [ht] at hi
      cases hsearch : (after k ops).controlEventHandlerLPM.searchPrefix k s.event.id with
      | none =>
        rw [hsearch] at hi
        cases hi
      | some handler =>
        rw [hsearch] at hi
        cases hty : s.event.type with
        | none =>
          rw [hty] at hi
          cases hi
        | some ty =>
          rw [hty] at hi
          cases hi
          obtain ⟨pre, p, post, e, hno⟩ := control_registered hsearch
          exact hno ((e ▸ hc).undone rfl)

/-- **No handler is called after it was unregistered.**  Once every registration of `h` was taken
back, and as long as `h` is not registered again, no step calls a method of `h`, whatever else is
registered and wherever the event thread stands. -/
theorem unregistered_not_invoked (k : Nat) (event : BAEvent) (h : H) (as bs : List (Act H))
    (s : State H) (hrun : run (step k) (init event) (as ++ bs) = some s)
    (hclear : Cleared h (opsOf as)) (hno : ∀ o ∈ opsOf bs, ¬ Names h o) (a : Act H) :
    invoked k s a ≠ some h := by
  intro hi
  have htables : s.call.tables = after k (opsOf as ++ opsOf bs) := by
    rw [run_tables hrun, opsOf, List.filterMap_append]
    rfl
  exact invoked_registered htables hi (hclear.append hno)

/-- one handler for a scope and for an item in it, both taken back -/
def comeAndGo : List (Act Nat) :=
  [.block (.other (.registerControlEventHandler oneItem 7)),
    .block (.other (.registerDataEventHandler newItem.id 7)), .eventReceived newItem,
    .block (.other (.unregisterDataEventHandler newItem.id)), .block .dataBlock,
    .block (.other (.unregisterControlEventHandler oneItem))]

/-- another handler comes in the meantime -/
theorem unregistered_not_invoked_comeAndGo :
    ∃ s, run (step 8) (init newItem)
        (comeAndGo ++ [.block (.other (.registerControlEventHandler otherItem 9))]) = some s ∧
      invoked 8 s (.block .controlBlock) ≠ some 7 := by
  obtain ⟨s, hrun⟩ : ∃ s, run (step 8) (init newItem)
      (comeAndGo ++ [.block (.other (.registerControlEventHandler otherItem 9))]) = some s :=
    ⟨_, rfl⟩
  have hops : opsOf comeAndGo = [.registerControlEventHandler oneItem 7,
      .registerDataEventHandler newItem.id 7, .unregisterDataEventHandler newItem.id,
      .unregisterControlEventHandler oneItem] := rfl
  refine ⟨s, hrun, unregistered_not_invoked 8 newItem 7 comeAndGo _ s hrun ?_ ?_ _⟩
  · rw [hops]
    simp [Cleared, Names, undo]
  · simp [opsOf, Act.op, Names]

end Dispatch

end HashClassifierCallback
end BA
