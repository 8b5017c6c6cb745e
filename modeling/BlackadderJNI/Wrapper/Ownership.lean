import BlackadderJNI.Lib.Ledger
import BlackadderJNI.Wrapper.Receive

/-!
# Who deletes a native event, and when

One thread receives events, on either path, and makes any calls on any of them; the finalizer runs
at any point.

* `State`, `step`      the `BAEvent`s, and every call of `c_delete_event` with its caller;
* `Inv`                the flag `freed` tells the deleted events from the others;
* `refines_ledger`     a run is a run of the ledger of native events: one acquisition for each
                       event, a release for each deletion;
* `exposed_live`       a call that hands out bytes finds the native event live;
* `deleted_once`       what follows.
-/

namespace BA
namespace Wrapper
namespace Ownership
open Run

structure State where
  events : List BAEvent
  /-- the pointers that the receive path wrapped, in the order of the events -/
  allocated : List Addr
  /-- the event that called `deleteEvent`, and what it passed -/
  deleted : List (Nat × Mapping)

inductive Act where
  | getNextEventDirect (viewsNull : Bool) (r : Reply) (eventPtr : Addr)
  | onEventReceived (viewsNull : Bool) (inst : Option EventManagement) (r : Reply)
      (eventPtr : Addr)
  | call (i : Nat) (m : Method)

def State.init : State := ⟨[], [], []⟩

/-- a receive path with the fresh pointer `eventPtr`; when the path throws there is no event -/
def receive (s : State) (eventPtr : Addr) (c : Except JavaException BAEvent) : Option State :=
  if eventPtr ∈ s.allocated then none
  else
    match c with
    | .error _ => some s
    | .ok e => some { s with events := s.events ++ [e], allocated := s.allocated ++ [eventPtr] }

def call (s : State) (i : Nat) (m : Method) : Option State :=
  match s.events[i]? with
  | none => none
  | some e =>
    let out := invoke e m
    some { s with
      events := s.events.set i out.event
      deleted := s.deleted ++ out.deleted.toList.map (i, ·) }

def step (s : State) : Act → Option State
  | .getNextEventDirect viewsNull r eventPtr =>
    receive s eventPtr (BAWrapper.getNextEventDirect viewsNull r eventPtr)
  | .onEventReceived viewsNull inst r eventPtr =>
    match BAWrapperNB.nextEvent viewsNull inst r eventPtr with
    | none => some s
    | some c => receive s eventPtr c
  | .call i m => call s i m

/-! ## what a step can do -/

/-- a step adds a fresh event, or is a call, or changes nothing -/
inductive Effect (s s' : State) : Prop
  | receive (e : BAEvent) (eventPtr : Addr) (unused : eventPtr ∉ s.allocated)
      (fresh : Fresh e eventPtr)
      (eq : s' = ⟨s.events ++ [e], s.allocated ++ [eventPtr], s.deleted⟩)
  | call (i : Nat) (m : Method) (e : BAEvent) (event : s.events[i]? = some e)
      (eq : s' = ⟨s.events.set i (invoke e m).event, s.allocated,
        s.deleted ++ (invoke e m).deleted.toList.map (i, ·)⟩)
  | skip (eq : s' = s)

theorem receive_effect {s s' : State} {eventPtr : Addr} {c : Except JavaException BAEvent}
    (hc : ∀ e, c = .ok e → Fresh e eventPtr) (h : receive s eventPtr c = some s') :
    Effect s s' := by
  unfold receive at h
  split at h
  · cases h
  next hfresh =>
  cases c with
  | error ex => exact .skip (Option.some.inj h).symm
  | ok e => exact .receive e eventPtr hfresh (hc e rfl) (Option.some.inj h).symm

theorem step_effect {s s' : State} {a : Act} (h : step s a = some s') : Effect s s' := by
  cases a with
  | getNextEventDirect viewsNull r eventPtr =>
    refine receive_effect (fun e he => ?_) h
    unfold BAWrapper.getNextEventDirect at he
    exact construct_fresh he
  | onEventReceived viewsNull inst r eventPtr =>
    dsimp only [step, BAWrapperNB.nextEvent] at h
    cases hev : NBBlackadder.selectorEvent r with
    | none =>
      rw [hev] at h
      exact .skip (Option.some.inj h).symm
    | some ev =>
      rw [hev] at h
      refine receive_effect (fun e he => ?_) h
      unfold BAWrapperNB.nativeOnEventReceived BAWrapperNB.onEventReceived at he
      exact construct_fresh he
  | call i m =>
    dsimp only [step, call] at h
    split at h
    · cases h
    · next e he => exact .call i m e he (Option.some.inj h).symm

/-! ## the invariant -/

structure Inv (s : State) : Prop where
  length : s.allocated.length = s.events.length
  nodup : s.allocated.Nodup
  mapped : ∀ (i : Nat) (e : BAEvent), s.events[i]? = some e →
    ∃ m : Mapping, e.mapping = some m ∧ s.allocated[i]? = some m.eventPtr
  freed : ∀ (i : Nat) (e : BAEvent), s.events[i]? = some e →
    (e.freed = true ↔ i ∈ s.deleted.map Prod.fst)
  data : ∀ (i : Nat) (e : BAEvent), s.events[i]? = some e → e.freed = true → e.data = none
  owner : ∀ d ∈ s.deleted, s.allocated[d.1]? = some d.2.eventPtr

theorem Inv.init : Inv State.init where
  length := rfl
  nodup := List.nodup_nil
  mapped := nofun
  freed := nofun
  data := nofun
  owner := nofun

/-- the event at an index after one was added -/
theorem getElem?_snoc {α : Type} {l : List α} {x y : α} {i : Nat} (h : (l ++ [x])[i]? = some y) :
    l[i]? = some y ∨ (i = l.length ∧ y = x) := by
  rcases Nat.lt_or_ge i l.length with hi | hi
  · rw [List.getElem?_append_left hi] at h
    exact Or.inl h
  · rw [List.getElem?_append_right hi, List.getElem?_singleton] at h
    obtain ⟨hz, hx⟩ := Option.ite_none_right_eq_some.mp h
    exact Or.inr ⟨by omega, (Option.some.inj hx).symm⟩

theorem getElem?_keep {α : Type} {l : List α} {x y : α} {i : Nat} (h : l[i]? = some y) :
    (l ++ [x])[i]? = some y := by
  rw [List.getElem?_append_left (List.getElem?_eq_some_iff.mp h).1]
  exact h

theorem Inv.receive {s : State} (hi : Inv s) {e : BAEvent} {eventPtr : Addr}
    (hunused : eventPtr ∉ s.allocated) (hfresh : Fresh e eventPtr) :
    Inv ⟨s.events ++ [e], s.allocated ++ [eventPtr], s.deleted⟩ := by
  obtain ⟨w, hw⟩ := hfresh.mapped
  have hlast : (s.allocated ++ [eventPtr])[s.events.length]? = some eventPtr := by
    rw [← hi.length, List.getElem?_append_right (Nat.le_refl _), Nat.sub_self]
    rfl
  refine ⟨by simp [hi.length], ?_, ?_, ?_, ?_, fun d hd => getElem?_keep (hi.owner d hd)⟩
  · rw [List.nodup_append]
    refine ⟨hi.nodup, List.nodup_singleton _, fun p hp q hq heq => ?_⟩
    rw [heq, List.mem_singleton.mp hq] at hp
    exact hunused hp
  · intro i e' he'
    rcases getElem?_snoc he' with h | ⟨rfl, rfl⟩
    · obtain ⟨m, hm, ha⟩ := hi.mapped i e' h
      exact ⟨m, hm, getElem?_keep ha⟩
    · exact ⟨_, hw, hlast⟩
  · intro i e' he'
    rcases getElem?_snoc he' with h | ⟨rfl, rfl⟩
    · exact hi.freed i e' h
    · refine ⟨fun hf => absurd hf (by simp [hfresh.live]), fun hd => ?_⟩
      -- no event beyond the end of the list was deleted
      obtain ⟨d, hd, hidx⟩ := List.mem_map.mp hd
      have hlt := (List.getElem?_eq_some_iff.mp (hi.owner d hd)).1
      rw [hi.length, hidx] at hlt
      exact absurd hlt (Nat.lt_irrefl _)
  · intro i e' he' hf
    rcases getElem?_snoc he' with h | ⟨rfl, rfl⟩
    · exact hi.data i e' h hf
    · exact absurd hf (by simp [hfresh.live])

/-- the event at an index after one was replaced -/
theorem getElem?_set_cases {α : Type} {l : List α} {x y : α} {i j : Nat}
    (h : (l.set i x)[j]? = some y) : (j = i ∧ y = x) ∨ (j ≠ i ∧ l[j]? = some y) := by
  rw [List.getElem?_set] at h
  by_cases hij : i = j
  · rw [if_pos hij] at h
    obtain ⟨_, hx⟩ := Option.ite_none_right_eq_some.mp h
    exact Or.inl ⟨hij.symm, (Option.some.inj hx).symm⟩
  · rw [if_neg hij] at h
    exact Or.inr ⟨fun e => hij e.symm, h⟩

theorem Inv.kept {s : State} (hi : Inv s) {i : Nat} {e e' : BAEvent} (he : s.events[i]? = some e)
    (hk : Kept e e') : Inv ⟨s.events.set i e', s.allocated, s.deleted⟩ := by
  refine ⟨by simp [hi.length], hi.nodup, ?_, ?_, ?_, hi.owner⟩
  · intro j f hf
    rcases getElem?_set_cases hf with ⟨rfl, rfl⟩ | ⟨_, h⟩
    · rw [hk.mapping]
      exact hi.mapped j e he
    · exact hi.mapped j f h
  · intro j f hf
    rcases getElem?_set_cases hf with ⟨rfl, rfl⟩ | ⟨_, h⟩
    · rw [hk.freed]
      exact hi.freed j e he
    · exact hi.freed j f h
  · intro j f hf hfreed
    rcases getElem?_set_cases hf with ⟨rfl, rfl⟩ | ⟨_, h⟩
    · rw [hk.freed] at hfreed
      have hd := hi.data j e he hfreed
      have hb := hk.bytes
      rw [hd] at hb
      exact Option.map_eq_none_iff.mp hb
    · exact hi.data j f h hfreed

theorem Inv.free {s : State} (hi : Inv s) {i : Nat} {e : BAEvent} {m : Mapping}
    (he : s.events[i]? = some e) (hm : e.mapping = some m) :
    Inv ⟨s.events.set i e.afterFree, s.allocated, s.deleted ++ [(i, m)]⟩ := by
  refine ⟨by simp [hi.length], hi.nodup, ?_, ?_, ?_, ?_⟩
  · intro j f hf
    rcases getElem?_set_cases hf with ⟨rfl, rfl⟩ | ⟨_, h⟩
    · exact hi.mapped j e he
    · exact hi.mapped j f h
  · intro j f hf
    rw [List.map_append, List.mem_append]
    rcases getElem?_set_cases hf with ⟨rfl, rfl⟩ | ⟨hne, h⟩
    · exact ⟨fun _ => Or.inr List.mem_cons_self, fun _ => rfl⟩
    · rw [hi.freed j f h]
      refine ⟨Or.inl, fun hor => hor.resolve_right fun hmem => ?_⟩
      exact hne (List.mem_singleton.mp hmem)
  · intro j f hf hfreed
    rcases getElem?_set_cases hf with ⟨rfl, rfl⟩ | ⟨_, h⟩
    · rfl
    · exact hi.data j f h hfreed
  · intro d hd
    rcases List.mem_append.mp hd with hd | hd
    · exact hi.owner d hd
    · rw [List.mem_singleton.mp hd]
      obtain ⟨m', hm', ha⟩ := hi.mapped i e he
      rw [hm] at hm'
      cases hm'
      exact ha

/-! ## the ledger of native events -/

def ledger (s : State) : Ledger Addr := ⟨s.allocated, s.deleted.map fun d => d.2.eventPtr⟩

/-- a native event is live as long as its `BAEvent` is not freed -/
theorem Inv.live {s : State} (hi : Inv s) {i : Nat} {e : BAEvent} {m : Mapping}
    (he : s.events[i]? = some e) (hm : e.mapping = some m) (hf : e.freed = false) :
    (ledger s).Live m.eventPtr := by
  obtain ⟨m', hm', ha⟩ := hi.mapped i e he
  rw [hm] at hm'
  cases hm'
  refine ⟨List.mem_of_getElem? ha, fun hdel => ?_⟩
  obtain ⟨d, hd, hptr⟩ := List.mem_map.mp hdel
  have hsame : s.allocated[d.1]? = s.allocated[i]? := by
    rw [hi.owner d hd, ha, hptr]
  have hidx : d.1 = i := by
    have hlt := (List.getElem?_eq_some_iff.mp (hi.owner d hd)).1
    exact (List.getElem?_inj hlt hi.nodup).mp hsame
  have hfreed := (hi.freed i e he).mpr (hidx ▸ List.mem_map_of_mem hd)
  rw [hf] at hfreed
  cases hfreed

/-- one step of the program is a run of the ledger -/
theorem ledger_step {s s' : State} {a : Act} (hi : Inv s) (h : step s a = some s') :
    Inv s' ∧ ∃ bs, run Ledger.step (ledger s) bs = some (ledger s') := by
  cases step_effect h with
  | skip eq =>
    rw [eq]
    exact ⟨hi, [], rfl⟩
  | receive e eventPtr unused fresh eq =>
    rw [eq]
    refine ⟨hi.receive unused fresh, [.acquire eventPtr], ?_⟩
    rw [run_cons, Ledger.step_acquire unused]
    rfl
  | call i m e he eq =>
    rw [eq]
    rcases invoke_effect e m with ⟨hk, hnone⟩ | ⟨map, hf, hm, hfree⟩
    · rw [hnone]
      show Inv ⟨_, _, s.deleted ++ []⟩ ∧ _
      rw [List.append_nil]
      exact ⟨hi.kept he hk, [], by simp [ledger]⟩
    · rw [hfree]
      refine ⟨hi.free he hm, [.release map.eventPtr], ?_⟩
      rw [run_cons, Ledger.step_release (hi.live he hm hf)]
      simp [ledger]

theorem refines_ledger {as : List Act} {s : State} (h : run step State.init as = some s) :
    Inv s ∧ ∃ bs, run Ledger.step Ledger.empty bs = some (ledger s) := by
  have hsim := run_sim (fun (t : State) l => Inv t ∧ l = ledger t) (fun _ => ([] : List Unit))
    (fun _ => []) (fun t l a u ht ha => by
      obtain ⟨hu, bs, hbs⟩ := ledger_step ht.1 ha
      exact ⟨bs, ledger u, ht.2 ▸ hbs, ⟨hu, rfl⟩, by simp⟩) (u := Ledger.empty) ⟨Inv.init, rfl⟩ h
  obtain ⟨bs, l, hbs, ⟨hs, rfl⟩, _⟩ := hsim
  exact ⟨hs, bs, hbs⟩

theorem exposed_live {s : State} (hi : Inv s) {i : Nat} {e : BAEvent} {map : Mapping}
    (he : s.events[i]? = some e) (hm : e.mapping = some map) {m : Method}
    (hx : (invoke e m).result.exposed ≠ []) : (ledger s).Live map.eventPtr := by
  apply hi.live he hm
  by_contra hf
  rw [Bool.not_eq_false] at hf
  exact hx (invoke_freed hf (hi.data i e he hf) m).1

/-- **A native event is deleted once, and not read afterwards.**  No pointer is deleted twice;
each deletion passes the pointer that belongs to the event it was called on; and a call on an
event whose native event was deleted hands out no byte. -/
theorem deleted_once (as : List Act) (s : State) (h : run step State.init as = some s) :
    (s.deleted.map fun d => d.2.eventPtr).Nodup ∧
    (∀ d ∈ s.deleted, s.allocated[d.1]? = some d.2.eventPtr) ∧
    ∀ d ∈ s.deleted, ∀ e, s.events[d.1]? = some e → ∀ m, (invoke e m).result.exposed = [] := by
  obtain ⟨hi, bs, hbs⟩ := refines_ledger h
  refine ⟨(Ledger.run_sound hbs).nodup, hi.owner, fun d hd e he m => ?_⟩
  by_contra hx
  obtain ⟨map, hm, ha⟩ := hi.mapped d.1 e he
  have hptr : map.eventPtr = d.2.eventPtr := by
    rw [hi.owner d hd] at ha
    exact (Option.some.inj ha).symm
  have hlive := exposed_live hi he hm hx
  rw [hptr] at hlive
  exact hlive.2 (List.mem_map_of_mem hd)

/-- two events, one of each path; the first is freed twice and read, then both are finalized -/
def twoEvents : List Act :=
  [.getNextEventDirect true (Reply.whole newData newData_length) 64,
    .onEventReceived true (some .baWrapperNB) (Reply.whole stopDatagram stopDatagram_length) 128,
    .call 0 .getDataCopy, .call 0 .freeNativeBuffer, .call 0 .getDataCopy,
    .call 0 .freeNativeBuffer, .call 1 .finalize, .call 0 .finalize]

theorem deleted_once_two :
    ∃ s, run step State.init twoEvents = some s ∧ s.deleted.length = 2 ∧
      (s.deleted.map fun d => d.2.eventPtr).Nodup := by
  obtain ⟨s, hrun, hlen⟩ : ∃ s, run step State.init twoEvents = some s ∧ s.deleted.length = 2 :=
    ⟨_, rfl, rfl⟩
  exact ⟨s, hrun, hlen, (deleted_once twoEvents s hrun).1⟩

end Ownership
end Wrapper
end BA
