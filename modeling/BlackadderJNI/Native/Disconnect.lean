import BlackadderJNI.Native.SendOrder

/-!
# `c_delete_ba` while requests are pending

One thread calls `NB_Blackadder::disconnect` and then the destructor, among producers and the
selector.  `disconnect` sends past `output_queue` and closes the socket; only the destructor, which
runs afterwards, waits for the queue.

* `State`, `step`       the send path, the calling thread, and the socket that both use;
* `pushed`, `Returned`  the requests so far, and those whose push has returned;
* `Effect`              what one step can do;
* `Last`                DISCONNECT comes after the requests of `before`, and the close too;
* `Loses`               the caller sends or closes while one of them is in the queue;
* `last_iff`            `Last` holds all along a run exactly when no step of it loses a request;
* `wire_of_closed`      what is queued when the socket closes is never accepted.
-/

namespace BA
namespace Disconnect
open Run SendPath

/-- a request, with its number in the order of the pushes and the thread that made it -/
structure Request (M : Type) where
  number : Nat
  thread : Tid
  msg : M
  deriving DecidableEq, Repr

inductive Sent (M : Type) where
  | request (r : Request M)
  | disconnect
  deriving DecidableEq, Repr

/-- the statement that the calling thread runs next -/
inductive Pc where
  | running
  | sendmsg
  | close
  | clear
  | destructor
  | waiting
  | closeAgain
  | deleted
  deriving DecidableEq, Repr

/-- the thread is inside `c_delete_ba` -/
def Pc.busy : Pc → Bool
  | .running | .deleted => false
  | _ => true

structure State (M : Type) where
  path : SendPath.State (Request M)
  /-- `none` is -1 -/
  sockFd : Option Nat
  closed : Bool
  caller : Tid
  pc : Pc
  /-- everything the socket accepted, in order -/
  wire : List (Sent M)
  /-- the requests whose push had returned when `c_delete_ba` was called -/
  before : List (Request M)

variable {M : Type}

def init (sockFd : Option Nat) (caller : Tid) : State M where
  path := SendPath.init
  sockFd := sockFd
  closed := false
  caller := caller
  pc := .running
  wire := []
  before := []

def State.isOpen (s : State M) : Bool := s.sockFd.isSome && !s.closed

/-! ## the producers and the selector -/

def numbered (n : Nat) : SendPath.Act M → SendPath.Act (Request M)
  | .enqueue t msg => .enqueue t ⟨n, t, msg⟩
  | .resume t => .resume t
  | .spurious t => .spurious t
  | .selectError => .selectError
  | .select r w => .select r w
  | .readPipe => .readPipe
  | .receive => .receive
  | .send ret wake => .send ret wake
  | .rearm => .rearm

/-- the requests pushed so far: those accepted, then those in `output_queue` -/
def pushed (p : SendPath.State (Request M)) : List (Request M) := p.wire ++ p.outputQueue

/-- a thread that waits in a push waits in its last one -/
def Returned (p : SendPath.State (Request M)) (r : Request M) : Prop :=
  (r.thread ∉ p.waiting ∧ r.thread ∉ p.woken) ∨
    ∃ r' ∈ pushed p, r'.thread = r.thread ∧ r.number < r'.number

instance (p : SendPath.State (Request M)) (r : Request M) : Decidable (Returned p r) :=
  inferInstanceAs (Decidable ((r.thread ∉ p.waiting ∧ r.thread ∉ p.woken) ∨
    ∃ r' ∈ pushed p, r'.thread = r.thread ∧ r.number < r'.number))

/-- a thread inside `c_delete_ba` pushes nothing, and a closed socket accepts nothing -/
def Blocked (s : State M) (a : SendPath.Act (Request M)) : Prop :=
  (s.pc.busy = true ∧ ∃ r ∈ a.pushed, r.thread = s.caller) ∨
    (s.isOpen = false ∧ (accepted s.path a).isSome = true)

instance (s : State M) (a : SendPath.Act (Request M)) : Decidable (Blocked s a) :=
  inferInstanceAs (Decidable ((s.pc.busy = true ∧ ∃ r ∈ a.pushed, r.thread = s.caller) ∨
    (s.isOpen = false ∧ (accepted s.path a).isSome = true)))

/-- the destructor goes on when its thread returns from `pthread_cond_wait` -/
def nextPc (s : State M) : SendPath.Act M → Pc
  | .resume t => if t = s.caller ∧ s.pc = .waiting then .closeAgain else s.pc
  | _ => s.pc

def other (s : State M) (a : SendPath.Act M) : Option (State M) :=
  let b := numbered (pushed s.path).length a
  if Blocked s b then none
  else (SendPath.step s.path b).map fun p =>
    { s with
      path := p
      wire := s.wire ++ (accepted s.path b).toList.map .request
      pc := nextPc s a }

/-! ## the calling thread -/

def call (s : State M) : Option (State M) :=
  if s.pc = .running ∧ s.caller ∉ s.path.waiting ∧ s.caller ∉ s.path.woken then
    some { s with
      before := (pushed s.path).filter (Returned s.path)
      pc := if s.sockFd = none then .destructor else .sendmsg }
  else none

/-- `sendmsg` of DISCONNECT returns `ret` -/
def sendmsg (s : State M) (ret : Int) : Option (State M) :=
  if s.pc = .sendmsg then
    some { s with wire := if 0 < ret then s.wire ++ [.disconnect] else s.wire, pc := .close }
  else none

def close (s : State M) : Option (State M) :=
  if s.pc = .close then some { s with closed := true, pc := .clear } else none

/-- `sock_fd = -1` -/
def clear (s : State M) : Option (State M) :=
  if s.pc = .clear then some { s with sockFd := none, pc := .destructor } else none

/-- the critical section of the destructor -/
def drain (s : State M) : Option (State M) :=
  if s.pc ≠ .destructor then none
  else if s.path.outputQueue.length ≠ 0 then
    some { s with path := { s.path with waiting := s.caller :: s.path.waiting }, pc := .waiting }
  else some { s with pc := .closeAgain }

/-- `if (sock_fd != -1) close(sock_fd)` -/
def closeAgain (s : State M) : Option (State M) :=
  if s.pc = .closeAgain then
    some { s with closed := s.closed || s.sockFd.isSome, pc := .deleted }
  else none

inductive Act (M : Type) where
  | other (a : SendPath.Act M)
  | call
  | sendmsg (ret : Int)
  | close
  | clear
  | drain
  | closeAgain

def step (s : State M) : Act M → Option (State M)
  | .other a => other s a
  | .call => call s
  | .sendmsg ret => sendmsg s ret
  | .close => close s
  | .clear => clear s
  | .drain => drain s
  | .closeAgain => closeAgain s

/-! ## what one step can do -/

theorem numbered_pushed (n : Nat) (a : SendPath.Act M) :
    ∀ r ∈ (numbered n a).pushed, r.number = n := by
  cases a with
  | enqueue t msg =>
    intro r hr
    rw [List.mem_singleton.mp hr]
  | _ => exact fun r hr => absurd hr List.not_mem_nil

theorem pushed_eff (a : SendPath.Act M) : a.pushed = [] ∨ ∃ msg, a.pushed = [msg] := by
  cases a with
  | enqueue t msg => exact Or.inr ⟨msg, rfl⟩
  | _ => exact Or.inl rfl

/-- what is pushed comes last -/
theorem pushed_step {p p' : SendPath.State (Request M)} {a : SendPath.Act (Request M)}
    (h : SendPath.step p a = some p') : pushed p' = pushed p ++ a.pushed := by
  unfold pushed
  rcases queue_step h with ⟨r, _, hq, hw, hp⟩ | ⟨_, hq, hw⟩
  · rw [hw, hq, hp]
    simp
  · rw [hw, hq, List.append_assoc]

theorem wire_step {p p' : SendPath.State (Request M)} {a : SendPath.Act (Request M)}
    (h : SendPath.step p a = some p') : p'.wire = p.wire ++ (accepted p a).toList := by
  rcases queue_step h with ⟨r, ha, _, hw, _⟩ | ⟨ha, _, hw⟩
  · rw [hw, ha]
    rfl
  · rw [hw, ha]
    simp

/-- one step of a producer or of the selector -/
structure Other (s s' : State M) (b : SendPath.Act (Request M)) : Prop where
  number : ∀ r ∈ b.pushed, r.number = (pushed s.path).length
  isOpen : s.isOpen = false → accepted s.path b = none
  path : SendPath.step s.path b = some s'.path
  wire : s'.wire = s.wire ++ (accepted s.path b).toList.map .request
  sockFd : s'.sockFd = s.sockFd
  closed : s'.closed = s.closed
  before : s'.before = s.before
  pc : s'.pc = s.pc ∨ s.pc = .waiting ∧ s'.pc = .closeAgain

theorem nextPc_eff (s : State M) (a : SendPath.Act M) :
    nextPc s a = s.pc ∨ s.pc = .waiting ∧ nextPc s a = .closeAgain := by
  cases a with
  | resume t =>
    by_cases hc : t = s.caller ∧ s.pc = .waiting
    · exact Or.inr ⟨hc.2, if_pos hc⟩
    · exact Or.inl (if_neg hc)
  | _ => exact Or.inl rfl

theorem other_eff {s s' : State M} {a : SendPath.Act M} (h : other s a = some s') :
    ∃ b, Other s s' b := by
  unfold other at h
  obtain ⟨hb, h⟩ := Option.ite_none_left_eq_some.mp h
  obtain ⟨p, hp, e⟩ := Option.map_eq_some_iff.mp h
  cases e
  refine ⟨numbered (pushed s.path).length a, numbered_pushed _ a, fun ho => ?_, hp, rfl, rfl, rfl,
    rfl, nextPc_eff s a⟩
  apply Option.not_isSome_iff_eq_none.mp
  exact fun hsome => hb (Or.inr ⟨ho, hsome⟩)

/-- what one step can do -/
inductive Effect (s s' : State M) : Act M → Prop
  | other (a : SendPath.Act M) (b : SendPath.Act (Request M)) (eff : Other s s' b) :
      Effect s s' (.other a)
  | call (pc : s.pc = .running)
      (eq : s' = { s with
        before := (pushed s.path).filter (Returned s.path)
        pc := if s.sockFd = none then .destructor else .sendmsg }) : Effect s s' .call
  | sendmsg (ret : Int) (pc : s.pc = .sendmsg)
      (eq : s' = { s with
        wire := if 0 < ret then s.wire ++ [.disconnect] else s.wire
        pc := .close }) : Effect s s' (.sendmsg ret)
  | close (eq : s' = { s with closed := true, pc := .clear }) : Effect s s' .close
  | clear (eq : s' = { s with sockFd := none, pc := .destructor }) : Effect s s' .clear
  | drain (waiting : List Tid) (next : Pc) (pc : s.pc = .destructor)
      (phase : next = .waiting ∨ next = .closeAgain)
      (eq : s' = { s with path := { s.path with waiting := waiting }, pc := next }) :
      Effect s s' .drain
  | closeAgain (pc : s.pc = .closeAgain)
      (eq : s' = { s with closed := s.closed || s.sockFd.isSome, pc := .deleted }) :
      Effect s s' .closeAgain

theorem step_effect {s s' : State M} {a : Act M} (h : step s a = some s') : Effect s s' a := by
  cases a with
  | other a =>
    obtain ⟨b, hb⟩ := other_eff h
    exact .other a b hb
  | call =>
    obtain ⟨hc, e⟩ := Option.ite_none_right_eq_some.mp h
    exact .call hc.1 (Option.some.inj e).symm
  | sendmsg ret =>
    obtain ⟨hpc, e⟩ := Option.ite_none_right_eq_some.mp h
    exact .sendmsg ret hpc (Option.some.inj e).symm
  | close =>
    obtain ⟨_, e⟩ := Option.ite_none_right_eq_some.mp h
    exact .close (Option.some.inj e).symm
  | clear =>
    obtain ⟨_, e⟩ := Option.ite_none_right_eq_some.mp h
    exact .clear (Option.some.inj e).symm
  | drain =>
    obtain ⟨hpc, h⟩ := Option.ite_none_left_eq_some.mp h
    split at h
    · exact .drain _ _ (not_not.mp hpc) (Or.inl rfl) (Option.some.inj h).symm
    · exact .drain s.path.waiting _ (not_not.mp hpc) (Or.inr rfl) (Option.some.inj h).symm
  | closeAgain =>
    obtain ⟨hpc, e⟩ := Option.ite_none_right_eq_some.mp h
    exact .closeAgain hpc (Option.some.inj e).symm

/-! ## what holds in every state -/

/-- the descriptor goes with the statement that the caller runs next -/
def Phase (s : State M) : Pc → Prop
  | .running => .disconnect ∉ s.wire ∧ s.closed = false
  | .sendmsg => s.isOpen = true
  | .destructor | .waiting | .closeAgain => s.sockFd = none
  | .close | .clear | .deleted => True

/-- the requests are numbered in the order of the pushes, and `wire` has those of the send path -/
structure Inv (s : State M) : Prop where
  numbers : (pushed s.path).map Request.number = List.range (pushed s.path).length
  wire : ∀ (r : Request M), .request r ∈ s.wire ↔ r ∈ s.path.wire
  before : ∀ (r : Request M), r ∈ s.before → r ∈ pushed s.path
  phase : Phase s s.pc

theorem Inv.init (sockFd : Option Nat) (caller : Tid) : Inv (init sockFd caller : State M) where
  numbers := rfl
  wire _ := iff_of_false List.not_mem_nil List.not_mem_nil
  before _ hr := absurd hr List.not_mem_nil
  phase := ⟨List.not_mem_nil, rfl⟩

theorem isOpen_congr {s s' : State M} (hf : s'.sockFd = s.sockFd) (hc : s'.closed = s.closed) :
    s'.isOpen = s.isOpen := by
  unfold State.isOpen
  rw [hf, hc]

theorem numbers_append {rs : List (Request M)} {b : SendPath.Act (Request M)}
    (hrs : rs.map Request.number = List.range rs.length)
    (hb : ∀ r ∈ b.pushed, r.number = rs.length) :
    (rs ++ b.pushed).map Request.number = List.range (rs ++ b.pushed).length := by
  rcases pushed_eff b with hp | ⟨r, hp⟩
  · rw [hp, List.append_nil]
    exact hrs
  · have hr : r.number = rs.length := hb r (hp ▸ List.mem_singleton_self r)
    rw [hp, List.map_append, hrs, List.length_append, List.length_singleton, List.range_succ]
    show List.range rs.length ++ [r.number] = _
    rw [hr]

/-- a step of another thread changes nothing that `Phase` speaks of, but accepts requests -/
theorem phase_other {s s' : State M} {b : SendPath.Act (Request M)} (h : Other s s' b) {pc : Pc}
    (hp : Phase s pc) : Phase s' pc := by
  cases pc with
  | running =>
    refine ⟨?_, h.closed.trans hp.2⟩
    rw [h.wire, List.mem_append]
    intro hor
    rcases hor with hm | hm
    · exact hp.1 hm
    · obtain ⟨_, _, hne⟩ := List.mem_map.mp hm
      cases hne
  | sendmsg => exact (isOpen_congr h.sockFd h.closed).trans hp
  | close | clear | deleted => trivial
  | destructor | waiting | closeAgain => exact h.sockFd.trans hp

theorem inv_other {s s' : State M} {b : SendPath.Act (Request M)} (hi : Inv s)
    (h : Other s s' b) : Inv s' where
  numbers := by
    rw [pushed_step h.path]
    exact numbers_append hi.numbers h.number
  wire r := by
    rw [h.wire, wire_step h.path, List.mem_append, List.mem_append, hi.wire r]
    apply or_congr_right
    simp
  before r hr := by
    rw [pushed_step h.path]
    exact List.mem_append_left _ (hi.before r (h.before ▸ hr))
  phase := by
    rcases h.pc with he | ⟨hw, he⟩
    · rw [he]
      exact phase_other h hi.phase
    · have hp := hi.phase
      rw [hw] at hp
      rw [he]
      exact h.sockFd.trans hp

theorem inv_step {s s' : State M} {a : Act M} (hi : Inv s) (h : step s a = some s') : Inv s' := by
  have hphase := hi.phase
  cases step_effect h with
  | other _ b eff => exact inv_other hi eff
  | call pc eq =>
    cases eq
    rw [pc] at hphase
    refine ⟨hi.numbers, hi.wire, fun r hr => (List.mem_filter.mp hr).1, ?_⟩
    cases hfd : s.sockFd with
    | none => exact rfl
    | some fd =>
      show State.isOpen _ = true
      unfold State.isOpen
      rw [hphase.2]
      rfl
  | sendmsg ret _ eq =>
    cases eq
    refine ⟨hi.numbers, fun r => ?_, hi.before, trivial⟩
    rw [← hi.wire r]
    show .request r ∈ (if 0 < ret then s.wire ++ [.disconnect] else s.wire) ↔ _
    split
    · simp
    · rfl
  | close eq =>
    cases eq
    exact ⟨hi.numbers, hi.wire, hi.before, trivial⟩
  | clear eq =>
    cases eq
    exact ⟨hi.numbers, hi.wire, hi.before, rfl⟩
  | drain waiting next pc phase eq =>
    cases eq
    rw [pc] at hphase
    refine ⟨hi.numbers, hi.wire, hi.before, ?_⟩
    rcases phase with rfl | rfl
    · exact hphase
    · exact hphase
  | closeAgain _ eq =>
    cases eq
    exact ⟨hi.numbers, hi.wire, hi.before, trivial⟩

/-- a request is accepted or queued, not both -/
theorem Inv.disjoint {s : State M} (hi : Inv s) {r : Request M} (hq : r ∈ s.path.outputQueue) :
    .request r ∉ s.wire := by
  intro hw
  have hnd : (pushed s.path).Nodup := by
    apply List.Nodup.of_map Request.number
    rw [hi.numbers]
    exact List.nodup_range
  exact List.disjoint_of_nodup_append hnd ((hi.wire r).mp hw) hq

/-! ## the requests of `before` -/

/-- DISCONNECT is accepted, and the socket closed, after every request of `before` -/
structure Last (s : State M) : Prop where
  after : ∀ pre : List (Sent M), pre ++ [.disconnect] <+: s.wire →
    ∀ r ∈ s.before, .request r ∈ pre
  closed : s.closed = true → ∀ r ∈ s.before, .request r ∈ s.wire

/-- a request of `before` is still in the queue -/
def Pending (s : State M) : Prop := ∃ r ∈ s.before, r ∈ s.path.outputQueue

/-- DISCONNECT is accepted, or the socket closed, with such a request in the queue -/
def Loses (s : State M) : Act M → Prop
  | .sendmsg ret => 0 < ret ∧ Pending s
  | .close => Pending s
  | _ => False

theorem sent_of_not_pending {s : State M} (hi : Inv s) (hp : ¬ Pending s) {r : Request M}
    (hr : r ∈ s.before) : .request r ∈ s.wire := by
  rcases List.mem_append.mp (hi.before r hr) with hw | hq
  · exact (hi.wire r).mpr hw
  · exact absurd ⟨r, hr, hq⟩ hp

theorem prefix_requests {pre w : List (Sent M)} (rs : List (Request M))
    (h : pre ++ [.disconnect] <+: w ++ rs.map .request) : pre ++ [.disconnect] <+: w := by
  induction rs using List.reverseRecOn with
  | nil => rwa [List.map_nil, List.append_nil] at h
  | append_singleton rs r ih =>
    rw [List.map_append, ← List.append_assoc] at h
    rcases List.prefix_concat_iff.mp h with he | hpre
    · have hlast := (List.append_inj' he rfl).2
      cases hlast
    · exact ih hpre

theorem last_step {s s' : State M} {a : Act M} (hi : Inv s) (hl : Last s) (hn : ¬ Loses s a)
    (h : step s a = some s') : Last s' := by
  have hphase := hi.phase
  cases step_effect h with
  | other _ b eff =>
    constructor
    · intro pre hpre r hr
      rw [eff.wire] at hpre
      exact hl.after pre (prefix_requests _ hpre) r (eff.before ▸ hr)
    · intro hc r hr
      rw [eff.wire]
      exact List.mem_append_left _ (hl.closed (eff.closed ▸ hc) r (eff.before ▸ hr))
  | call pc eq =>
    cases eq
    rw [pc] at hphase
    obtain ⟨hd, hc⟩ := hphase
    refine ⟨fun pre hpre => ?_, fun hc' => ?_⟩
    · exact absurd (hpre.subset (List.mem_append_right _ List.mem_cons_self)) hd
    · rw [hc] at hc'
      cases hc'
  | sendmsg ret _ eq =>
    cases eq
    by_cases hret : 0 < ret
    · have hp : ¬ Pending s := fun hp => hn ⟨hret, hp⟩
      constructor
      · intro pre hpre r hr
        rw [if_pos hret] at hpre
        rcases List.prefix_concat_iff.mp hpre with he | hpre
        · rw [(List.append_inj' he rfl).1]
          exact sent_of_not_pending hi hp hr
        · exact hl.after pre hpre r hr
      · intro hc r hr
        rw [if_pos hret]
        exact List.mem_append_left _ (hl.closed hc r hr)
    · rw [if_neg hret]
      exact ⟨hl.after, hl.closed⟩
  | close eq =>
    cases eq
    exact ⟨hl.after, fun _ r hr => sent_of_not_pending hi hn hr⟩
  | clear eq =>
    cases eq
    exact ⟨hl.after, hl.closed⟩
  | drain _ _ _ _ eq =>
    cases eq
    exact ⟨hl.after, hl.closed⟩
  | closeAgain pc eq =>
    cases eq
    rw [pc] at hphase
    refine ⟨hl.after, fun hc => hl.closed ?_⟩
    rw [← hc]
    show s.closed = (s.closed || s.sockFd.isSome)
    rw [show s.sockFd = none from hphase, Option.isSome_none, Bool.or_false]

theorem loses_not_last {s s' : State M} {a : Act M} (hi : Inv s) (hn : Loses s a)
    (h : step s a = some s') : ¬ Last s' := by
  intro hl
  cases step_effect h with
  | sendmsg ret _ eq =>
    obtain ⟨hret, r, hr, hq⟩ := hn
    cases eq
    have hpre : s.wire ++ [.disconnect] <+:
        if 0 < ret then s.wire ++ [.disconnect] else s.wire := by
      rw [if_pos hret]
    exact hi.disjoint hq (hl.after s.wire hpre r hr)
  | close eq =>
    obtain ⟨r, hr, hq⟩ := hn
    cases eq
    exact hi.disjoint hq (hl.closed rfl r hr)
  | _ => exact hn.elim

/-- **When DISCONNECT comes last.**  It does, and nothing pushed before the call is lost, exactly
when the caller neither gets DISCONNECT accepted nor closes the socket while a request of `before`
is in the queue. -/
theorem last_iff (sockFd : Option Nat) (caller : Tid) (as : List (Act M)) (s : State M)
    (h : run step (init sockFd caller) as = some s) :
    (∀ m, Visits step (init sockFd caller) as m → Last m) ↔
      Along step (fun t a => ¬ Loses t a) (init sockFd caller) as := by
  have hinit : Last (init sockFd caller : State M) := by
    refine ⟨fun pre hpre => ?_, fun hc => by cases hc⟩
    exact absurd (List.prefix_nil.mp hpre) (by simp)
  exact visits_iff_along (fun _ _ _ => inv_step) (fun _ _ _ => last_step)
    (fun _ _ _ hi hn ha => loses_not_last hi (not_not.mp hn) ha) (Inv.init sockFd caller) hinit h

/-! ## a request that is lost -/

instance (s : State M) [DecidableEq M] : Decidable (Pending s) :=
  inferInstanceAs (Decidable (∃ r ∈ s.before, r ∈ s.path.outputQueue))

instance (s : State M) [DecidableEq M] : ∀ a, Decidable (Loses s a)
  | .sendmsg ret => inferInstanceAs (Decidable (0 < ret ∧ Pending s))
  | .close => inferInstanceAs (Decidable (Pending s))
  | .other _ | .call | .clear | .drain | .closeAgain => isFalse id

/-- producer 0 pushes a request; thread 1 disconnects before the selector has sent it -/
def overtaking : List (Act Unit) := [.other (.enqueue 0 ()), .call, .sendmsg 17]

theorem disconnect_overtakes :
    ¬ ∀ (as : List (Act Unit)) (s : State Unit), run step (init (some 3) 1) as = some s →
      Last s := by
  intro hall
  obtain ⟨s, hrun, hwire, hbefore⟩ : ∃ s, run step (init (some 3) 1) overtaking = some s ∧
      s.wire = [.disconnect] ∧ s.before = [⟨0, 0, ()⟩] := ⟨_, rfl, rfl, rfl⟩
  have hnil := (hall overtaking s hrun).after [] (hwire ▸ List.prefix_refl _) ⟨0, 0, ()⟩
    (hbefore ▸ List.mem_cons_self)
  cases hnil

/-- the selector sends the request, and then thread 1 disconnects -/
def inTurn : List (Act Unit) :=
  [.other (.enqueue 0 ()), .other (.select {.pipe} ∅), .other .readPipe, .other .receive,
    .other (.send 24 none), .call, .sendmsg 17, .close, .clear, .drain, .closeAgain]

theorem last_iff_inTurn :
    ∃ s, run step (init (some 3) 1) inTurn = some s ∧
      s.wire = [.request ⟨0, 0, ()⟩, .disconnect] ∧
      ∀ m, Visits step (init (some 3) 1) inTurn m → Last m := by
  obtain ⟨s, hrun, hwire⟩ : ∃ s, run step (init (some 3) 1) inTurn = some s ∧
      s.wire = [.request ⟨0, 0, ()⟩, .disconnect] := ⟨_, rfl, rfl⟩
  exact ⟨s, hrun, hwire, (last_iff (some 3) 1 inTurn s hrun).mpr (by decide)⟩

/-! ## after the close -/

theorem closed_step {s s' : State M} {a : Act M} (hi : Inv s) (ho : s.isOpen = false)
    (h : step s a = some s') : s'.isOpen = false ∧ s'.wire = s.wire := by
  cases step_effect h with
  | other _ b eff =>
    refine ⟨(isOpen_congr eff.sockFd eff.closed).trans ho, ?_⟩
    rw [eff.wire, eff.isOpen ho]
    exact List.append_nil _
  | call _ eq =>
    cases eq
    exact ⟨ho, rfl⟩
  | sendmsg ret pc eq =>
    have hopen := hi.phase
    rw [pc] at hopen
    rw [show s.isOpen = true from hopen] at ho
    cases ho
  | close eq =>
    cases eq
    exact ⟨Bool.and_false _, rfl⟩
  | clear eq =>
    cases eq
    exact ⟨rfl, rfl⟩
  | drain _ _ _ _ eq =>
    cases eq
    exact ⟨ho, rfl⟩
  | closeAgain _ eq =>
    cases eq
    refine ⟨?_, rfl⟩
    show (s.sockFd.isSome && !(s.closed || s.sockFd.isSome)) = false
    cases s.sockFd.isSome <;> simp

/-- Once the socket is closed, nothing more is accepted: the requests that the destructor waits
for stay in the queue. -/
theorem wire_of_closed {sockFd : Option Nat} {caller : Tid} {as bs : List (Act M)} {s t : State M}
    (h : run step (init sockFd caller) as = some s) (ho : s.isOpen = false)
    (h' : run step s bs = some t) : t.wire = s.wire := by
  have hi : Inv s := run_inv (fun _ _ _ => inv_step) (Inv.init sockFd caller) h
  have hend := run_inv (I := fun u : State M => Inv u ∧ u.isOpen = false ∧ u.wire = s.wire)
    (fun u a v hu ha => by
      obtain ⟨hiu, hou, hwu⟩ := hu
      obtain ⟨hov, hwv⟩ := closed_step hiu hou ha
      exact ⟨inv_step hiu ha, hov, hwv.trans hwu⟩) ⟨hi, ho, rfl⟩ h'
  exact hend.2.2

end Disconnect
end BA
