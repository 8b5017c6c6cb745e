import BlackadderJNI.Callback.Dispatch
import BlackadderJNI.Lib.Monitors

/-!
# The synchronized blocks, instruction by instruction

`HashClassifierCallback.java` with its two monitors: threads enter a block, look into a table or
change it, call a handler and leave the block in steps of their own, and a handler may register
and unregister while its caller is inside the block.

* `Body`, `guard`     what stands inside the blocks, and the monitor around it;
* `State`, `step`     the monitors, the tables, and the local variable `checkControlQueue`;
* `Coming`            what is known of the code that a thread has still to execute;
* `blocks_atomic`     so the blocks are atomic: the tables and the deliveries are those of a run of
                      `Dispatch.step`, and `get` never finds null;
* `deadlock_free_iff`   no interleaving ends in a deadlock exactly when one thread at most runs
                      `eventReceived`.
-/

namespace BA
namespace HashClassifierCallback
namespace Synchronized
open Run

variable {T H : Type}

inductive Lock where
  | dataHandlerMap
  | controlEventHandlerLPM
  deriving DecidableEq

/-- what stands inside the synchronized blocks, and the test between those of `eventReceived` -/
inductive Body (H : Type) where
  | update (o : Op H H)
  | containsKey (event : BAEvent)
  /-- `dataHandlerMap.get(hashRid).publishedData(event)` -/
  | get (event : BAEvent)
  /-- `if (checkControlQueue)` -/
  | checkControlQueue (event : BAEvent)
  | searchPrefix (event : BAEvent)

/-- the monitor of a register or unregister operation -/
def lockOf : Op H H → Lock
  | .registerDataEventHandler _ _ => .dataHandlerMap
  | .unregisterDataEventHandler _ => .dataHandlerMap
  | .registerControlEventHandler _ _ => .controlEventHandlerLPM
  | .unregisterControlEventHandler _ => .controlEventHandlerLPM

def guard : Body H → Option Lock
  | .update o => some (lockOf o)
  | .containsKey _ => some .dataHandlerMap
  | .get _ => some .dataHandlerMap
  | .checkControlQueue _ => none
  | .searchPrefix _ => some .controlEventHandlerLPM

abbrev Code (H : Type) := List (Instr Lock (Body H))

/-- one of the four operations -/
def register (o : Op H H) : Code H := Instr.synchronized (lockOf o) (.update o)

def eventReceived (event : BAEvent) : Code H :=
  if event.type = some .publishedData then
    Instr.synchronized .dataHandlerMap (.containsKey event) ++ [.plain (.checkControlQueue event)]
  else [.plain (.checkControlQueue event)]

structure State (T H : Type) where
  monitors : Monitors T Lock (Body H)
  tables : HashClassifierCallback H H
  /-- the local variable of the call that a thread is in -/
  checkControlQueue : T → Bool
  /-- the changes of the tables, in their order -/
  updates : List (Op H H)
  delivered : List (BAEvent × Delivery H H)

def init : State T H := ⟨Monitors.init, new, fun _ => false, [], []⟩

inductive Act (T H : Type) where
  | register (t : T) (o : Op H H)
  | eventReceived (t : T) (event : BAEvent)
  /-- the next instruction; a handler that it calls goes on with `ops` -/
  | next (t : T) (ops : List (Op H H))

section
variable [DecidableEq T]

/-- what an instruction does, with the code that it puts before the rest; `get` on a missing key
has no result -/
def body (scopeIdLen : Nat) (s : State T H) (t : T) (ops : List (Op H H)) :
    Body H → Option (Code H × State T H)
  | .update o =>
    some ([], { s with tables := apply scopeIdLen s.tables o, updates := s.updates ++ [o] })
  | .containsKey event =>
    match s.tables.dataHandlerMap.lookup (arraysHashCode event.id) with
    | some _ => some ([.plain (.get event)],
        { s with checkControlQueue := Function.update s.checkControlQueue t false })
    | none => some ([], { s with checkControlQueue := Function.update s.checkControlQueue t true })
  | .get event =>
    match s.tables.dataHandlerMap.lookup (arraysHashCode event.id) with
    | some handler => some (ops.flatMap register,
        { s with delivered := s.delivered ++ [(event, .publishedData handler)] })
    | none => none
  | .checkControlQueue event =>
    some (if s.checkControlQueue t then
        Instr.synchronized .controlEventHandlerLPM (.searchPrefix event)
      else [], s)
  | .searchPrefix event =>
    let out := controlBlock scopeIdLen s.tables.controlEventHandlerLPM event
    some (if (Dispatch.handlerOf out).isSome then ops.flatMap register else [],
      { s with delivered := s.delivered ++ [(event, out)] })

def step (scopeIdLen : Nat) (s : State T H) : Act T H → Option (State T H)
  | .register t o =>
    (s.monitors.step (.start t (register o))).map fun monitors => { s with monitors }
  | .eventReceived t event =>
    (s.monitors.step (.start t (eventReceived event))).map fun monitors =>
      { s with
        monitors := monitors
        checkControlQueue := if event.type = some .publishedData then s.checkControlQueue
          else Function.update s.checkControlQueue t true }
  | .next t ops =>
    match s.monitors.code t with
    | [] => none
    | .enter _ :: _ => (s.monitors.step (.enter t)).map fun monitors => { s with monitors }
    | .leave _ :: _ => (s.monitors.step (.leave t)).map fun monitors => { s with monitors }
    | .plain x :: _ =>
      (body scopeIdLen s t ops x).bind fun r =>
        (s.monitors.step (.exec t r.1)).map fun monitors => { r.2 with monitors }

/-! ## what a step can do -/

inductive Effect (k : Nat) (s s' : State T H) : Act T H → Prop
  | register (t : T) (o : Op H H) (monitors : Monitors T Lock (Body H))
      (step : s.monitors.step (.start t (register o)) = some monitors)
      (eq : s' = { s with monitors }) : Effect k s s' (.register t o)
  | eventReceived (t : T) (event : BAEvent) (monitors : Monitors T Lock (Body H))
      (step : s.monitors.step (.start t (eventReceived event)) = some monitors)
      (eq : s' = { s with
        monitors := monitors
        checkControlQueue := if event.type = some .publishedData then s.checkControlQueue
          else Function.update s.checkControlQueue t true }) :
      Effect k s s' (.eventReceived t event)
  | enter (t : T) (ops : List (Op H H)) (monitors : Monitors T Lock (Body H))
      (step : s.monitors.step (.enter t) = some monitors) (eq : s' = { s with monitors }) :
      Effect k s s' (.next t ops)
  | leave (t : T) (ops : List (Op H H)) (monitors : Monitors T Lock (Body H))
      (step : s.monitors.step (.leave t) = some monitors) (eq : s' = { s with monitors }) :
      Effect k s s' (.next t ops)
  | body (t : T) (ops : List (Op H H)) (x : Body H) (rest c : Code H) (r : State T H)
      (monitors : Monitors T Lock (Body H)) (code : s.monitors.code t = .plain x :: rest)
      (body : body k s t ops x = some (c, r))
      (step : s.monitors.step (.exec t c) = some monitors) (eq : s' = { r with monitors }) :
      Effect k s s' (.next t ops)

theorem step_effect {k : Nat} {s s' : State T H} {a : Act T H} (h : step k s a = some s') :
    Effect k s s' a := by
  cases a with
  | register t o =>
    obtain ⟨m, hm, eq⟩ := Option.map_eq_some_iff.mp h
    exact .register t o m hm eq.symm
  | eventReceived t event =>
    obtain ⟨m, hm, eq⟩ := Option.map_eq_some_iff.mp h
    exact .eventReceived t event m hm eq.symm
  | next t ops =>
    dsimp only [step] at h
    split at h
    · cases h
    · obtain ⟨m, hm, eq⟩ := Option.map_eq_some_iff.mp h
      exact .enter t ops m hm eq.symm
    · obtain ⟨m, hm, eq⟩ := Option.map_eq_some_iff.mp h
      exact .leave t ops m hm eq.symm
    · next x rest hcode =>
      obtain ⟨⟨c, r⟩, hbody, hr⟩ := Option.bind_eq_some_iff.mp h
      obtain ⟨m, hm, eq⟩ := Option.map_eq_some_iff.mp hr
      exact .body t ops x rest c r m hcode hbody hm eq.symm

/-! ## the monitors -/

theorem balanced_register (o : Op H H) : Instr.Balanced guard (register o) :=
  Instr.Balanced.synchronized rfl

theorem balanced_eventReceived (event : BAEvent) :
    Instr.Balanced guard (eventReceived event : Code H) := by
  have hcheck : Instr.Balanced guard ([.plain (.checkControlQueue event)] : Code H) :=
    Instr.Balanced.plain rfl
  have hblock : Instr.Balanced guard
      (Instr.synchronized .dataHandlerMap (.containsKey event) : Code H) :=
    Instr.Balanced.synchronized rfl
  unfold eventReceived
  split
  · exact hblock.append hcheck
  · exact hcheck

theorem balanced_ops (ops : List (Op H H)) : Instr.Balanced guard (ops.flatMap register) :=
  Instr.Balanced.flatMap balanced_register ops

/-- the code that an instruction puts before the rest leaves what it enters, but for the call of
the handler, which needs the monitor that its block has entered -/
theorem body_balanced {k : Nat} {s r : State T H} {t : T} {ops : List (Op H H)} {x : Body H}
    {c : Code H} (h : body k s t ops x = some (c, r)) :
    Instr.Balanced guard c ∨
      guard x = some .dataHandlerMap ∧ ∃ event, c = [.plain (.get event)] := by
  cases x with
  | update o =>
    cases h
    exact Or.inl (Instr.Balanced.nil guard)
  | containsKey event =>
    dsimp only [body] at h
    split at h
    · cases h
      exact Or.inr ⟨rfl, event, rfl⟩
    · cases h
      exact Or.inl (Instr.Balanced.nil guard)
  | get event =>
    dsimp only [body] at h
    split at h
    · cases h
      exact Or.inl (balanced_ops ops)
    · cases h
  | checkControlQueue event =>
    cases h
    split
    · exact Or.inl (Instr.Balanced.synchronized rfl)
    · exact Or.inl (Instr.Balanced.nil guard)
  | searchPrefix event =>
    cases h
    split
    · exact Or.inl (balanced_ops ops)
    · exact Or.inl (Instr.Balanced.nil guard)

theorem sound_step {k : Nat} {s s' : State T H} {a : Act T H}
    (hs : Monitors.Sound guard s.monitors) (h : step k s a = some s') :
    Monitors.Sound guard s'.monitors := by
  cases step_effect h with
  | register t o m hm eq => exact eq ▸ hs.step hm (balanced_register o)
  | eventReceived t event m hm eq => exact eq ▸ hs.step hm (balanced_eventReceived event)
  | enter t ops m hm eq => exact eq ▸ hs.step hm trivial
  | leave t ops m hm eq => exact eq ▸ hs.step hm trivial
  | body t ops x rest c r m hcode hbody hm eq =>
    refine eq ▸ hs.step hm fun y rest' hcode' => ?_
    cases hcode.symm.trans hcode'
    have hg := hs.guarded t
    rw [hcode] at hg
    rcases body_balanced hbody with hc | ⟨hx, event, rfl⟩
    · exact ⟨fun l => hc.depth l rest, hc.guarded rest hg.2⟩
    · refine ⟨fun _ => rfl, fun l hl => ?_, hg.2⟩
      exact hg.1 l (hx.trans hl)

/-! ## the code that is still to come -/

/-- what `eventReceived` has still to look at -/
inductive Phase where
  | done
  | start (event : BAEvent)
  | control (event : BAEvent)

def phase (check : Bool) : Code H → Phase
  | [] => .done
  | .enter _ :: c => phase check c
  | .leave _ :: c => phase check c
  | .plain (.update _) :: c => phase check c
  | .plain (.containsKey event) :: _ => .start event
  | .plain (.get event) :: _ => .start event
  | .plain (.checkControlQueue event) :: _ => if check then .control event else .done
  | .plain (.searchPrefix event) :: _ => .control event

/-- the order in which the code of `eventReceived` comes, with registrations anywhere -/
def Coherent : Code H → Prop
  | [] => True
  | .enter _ :: c => Coherent c
  | .leave _ :: c => Coherent c
  | .plain (.update _) :: c => Coherent c
  | .plain (.containsKey event) :: c =>
    event.type = some .publishedData ∧ phase true c = .control event ∧
      phase false c = .done ∧ Coherent c
  | .plain (.get _) :: _ => False
  | .plain (.checkControlQueue _) :: c => (∀ check, phase check c = .done) ∧ Coherent c
  | .plain (.searchPrefix _) :: c => (∀ check, phase check c = .done) ∧ Coherent c

/-- what is known of a thread that calls a data handler next: the handler is there -/
structure Found (s : State T H) (t : T) (event : BAEvent) (rest : Code H) : Prop where
  type : event.type = some .publishedData
  check : s.checkControlQueue t = false
  key : s.tables.dataHandlerMap.lookup (arraysHashCode event.id) ≠ none
  done : phase false rest = .done
  rest : Coherent rest

def Coming (s : State T H) (t : T) : Prop :=
  Coherent (s.monitors.code t) ∨
    ∃ event rest, s.monitors.code t = .plain (.get event) :: rest ∧ Found s t event rest

theorem phase_register (check : Bool) (ops : List (Op H H)) (c : Code H) :
    phase check (ops.flatMap register ++ c) = phase check c := by
  induction ops with
  | nil => rfl
  | cons o ops ih =>
    rw [List.flatMap_cons, List.append_assoc]
    exact ih

theorem coherent_register (ops : List (Op H H)) {c : Code H} (h : Coherent c) :
    Coherent (ops.flatMap register ++ c) := by
  induction ops with
  | nil => exact h
  | cons o ops ih =>
    rw [List.flatMap_cons, List.append_assoc]
    exact ih

theorem coherent_eventReceived (event : BAEvent) : Coherent (eventReceived event : Code H) := by
  unfold eventReceived
  split
  · next h => exact ⟨h, rfl, rfl, fun _ => rfl, trivial⟩
  · exact ⟨fun _ => rfl, trivial⟩

omit [DecidableEq T] in
/-- a thread whose own code and variable stay -/
theorem Coming.congr {s s' : State T H} {u : T} (h : Coming s u)
    (hcode : s'.monitors.code u = s.monitors.code u)
    (hcheck : s'.checkControlQueue u = s.checkControlQueue u)
    (hdata : s'.tables.dataHandlerMap = s.tables.dataHandlerMap ∨
      ∀ event rest, s.monitors.code u ≠ .plain (.get event) :: rest) : Coming s' u := by
  rcases h with h | ⟨event, rest, hget, hf⟩
  · exact Or.inl (hcode ▸ h)
  · rcases hdata with hdata | hno
    · exact Or.inr ⟨event, rest, hcode.trans hget, hf.type, hcheck.trans hf.check,
        hdata ▸ hf.key, hf.done, hf.rest⟩
    · exact absurd hget (hno event rest)

omit [DecidableEq T] in
/-- a thread that enters or leaves a monitor -/
theorem Coming.tail {s : State T H} {t : T} (h : Coming s t) {i : Instr Lock (Body H)}
    {rest : Code H} (hcode : s.monitors.code t = i :: rest) (hi : ∀ x, i ≠ .plain x) :
    Coherent rest := by
  rcases h with h | ⟨event, rest', hget, _⟩
  · rw [hcode] at h
    cases i with
    | enter l => exact h
    | leave l => exact h
    | plain x => exact absurd rfl (hi x)
  · cases hcode.symm.trans hget
    exact absurd rfl (hi _)

omit [DecidableEq T] in
theorem Coming.coherent {s : State T H} {t : T} (h : Coming s t) {x : Body H} {rest : Code H}
    (hcode : s.monitors.code t = .plain x :: rest) (hx : ∀ event, x ≠ .get event) :
    Coherent (.plain x :: rest) := by
  rcases h with h | ⟨event, rest', hget, _⟩
  · rwa [hcode] at h
  · cases hcode.symm.trans hget
    exact absurd rfl (hx event)

omit [DecidableEq T] in
theorem Coming.found {s : State T H} {t : T} (h : Coming s t) {event : BAEvent} {rest : Code H}
    (hcode : s.monitors.code t = .plain (.get event) :: rest) : Found s t event rest := by
  rcases h with h | ⟨event', rest', hget, hf⟩
  · rw [hcode] at h
    exact h.elim
  · cases hcode.symm.trans hget
    exact hf

/-- the code that a thread has after one of its instructions -/
theorem coming_body {k : Nat} {s r : State T H} {t : T} {ops : List (Op H H)} {x : Body H}
    {rest c : Code H} (hc : Coming s t) (hcode : s.monitors.code t = .plain x :: rest)
    (h : body k s t ops x = some (c, r)) :
    Coherent (c ++ rest) ∨ ∃ event, c = [.plain (.get event)] ∧ Found r t event rest := by
  cases x with
  | update o =>
    cases h
    exact Or.inl (hc.coherent hcode nofun)
  | containsKey event =>
    obtain ⟨htype, _, hdone, hrest⟩ := hc.coherent hcode nofun
    dsimp only [body] at h
    split at h
    · next handler hkey =>
      cases h
      have hne : s.tables.dataHandlerMap.lookup (arraysHashCode event.id) ≠ none := by
        rw [hkey]
        exact Option.some_ne_none handler
      exact Or.inr ⟨event, rfl, htype, Function.update_self _ _ _, hne, hdone, hrest⟩
    · cases h
      exact Or.inl hrest
  | get event =>
    dsimp only [body] at h
    split at h
    · cases h
      exact Or.inl (coherent_register ops (hc.found hcode).rest)
    · cases h
  | checkControlQueue event =>
    obtain ⟨hdone, hrest⟩ := hc.coherent hcode nofun
    cases h
    refine Or.inl ?_
    split
    · exact ⟨hdone, hrest⟩
    · exact hrest
  | searchPrefix event =>
    obtain ⟨_, hrest⟩ := hc.coherent hcode nofun
    cases h
    refine Or.inl ?_
    split
    · exact coherent_register ops hrest
    · exact hrest

/-- an instruction of another thread leaves the variable of `u`, and the data table while `u` is
about to read it -/
theorem body_frame {k : Nat} {s r : State T H} {t u : T} {ops : List (Op H H)} {x : Body H}
    {rest c : Code H} (hs : Monitors.Sound guard s.monitors) (hu : u ≠ t)
    (hcode : s.monitors.code t = .plain x :: rest) (h : body k s t ops x = some (c, r)) :
    r.checkControlQueue u = s.checkControlQueue u ∧
      (r.tables.dataHandlerMap = s.tables.dataHandlerMap ∨
        ∀ event rest, s.monitors.code u ≠ .plain (.get event) :: rest) := by
  cases x with
  | update o =>
    cases h
    refine ⟨rfl, ?_⟩
    cases ho : o.dataWrite with
    | none => exact Or.inl (apply_data_none k s.tables ho)
    | some w =>
      refine Or.inr fun event rest' hget => hu ?_
      have hlock : lockOf o = .dataHandlerMap := by
        cases o with
        | registerDataEventHandler rid handler => rfl
        | unregisterDataEventHandler rid => rfl
        | registerControlEventHandler pre handler => cases ho
        | unregisterControlEventHandler pre => cases ho
      exact hs.exclusive hget rfl hcode (congrArg some hlock)
  | containsKey event =>
    dsimp only [body] at h
    split at h <;>
    · cases h
      exact ⟨Function.update_of_ne hu _ _, Or.inl rfl⟩
  | get event =>
    dsimp only [body] at h
    split at h
    · cases h
      exact ⟨rfl, Or.inl rfl⟩
    · cases h
  | checkControlQueue event =>
    cases h
    exact ⟨rfl, Or.inl rfl⟩
  | searchPrefix event =>
    cases h
    exact ⟨rfl, Or.inl rfl⟩

/-- the monitors are sound, and every thread is somewhere in the code of the class -/
structure Inv (s : State T H) : Prop where
  sound : Monitors.Sound guard s.monitors
  coming : ∀ t, Coming s t

theorem Inv.init : Inv (init : State T H) := ⟨Monitors.Sound.init, fun _ => Or.inl trivial⟩

theorem Inv.step {k : Nat} {s s' : State T H} {a : Act T H} (hs : Inv s)
    (h : step k s a = some s') : Inv s' := by
  refine ⟨sound_step hs.sound h, fun u => ?_⟩
  cases step_effect h with
  | register t o m hm eq =>
    rw [eq]
    rcases eq_or_ne u t with rfl | hu
    · refine Or.inl ?_
      show Coherent (m.code u)
      rw [(Monitors.code_start hm).2]
      trivial
    · exact (hs.coming u).congr (Monitors.code_other hm hu) rfl (Or.inl rfl)
  | eventReceived t event m hm eq =>
    rw [eq]
    rcases eq_or_ne u t with rfl | hu
    · refine Or.inl ?_
      show Coherent (m.code u)
      rw [(Monitors.code_start hm).2]
      exact coherent_eventReceived event
    · refine (hs.coming u).congr (Monitors.code_other hm hu) ?_ (Or.inl rfl)
      dsimp only
      split
      · rfl
      · exact Function.update_of_ne hu _ _
  | enter t ops m hm eq =>
    rw [eq]
    rcases eq_or_ne u t with rfl | hu
    · obtain ⟨l, hcode⟩ := Monitors.code_enter hm
      exact Or.inl ((hs.coming u).tail hcode nofun)
    · exact (hs.coming u).congr (Monitors.code_other hm hu) rfl (Or.inl rfl)
  | leave t ops m hm eq =>
    rw [eq]
    rcases eq_or_ne u t with rfl | hu
    · obtain ⟨l, hcode⟩ := Monitors.code_leave hm
      exact Or.inl ((hs.coming u).tail hcode nofun)
    · exact (hs.coming u).congr (Monitors.code_other hm hu) rfl (Or.inl rfl)
  | body t ops x rest c r m hcode hbody hm eq =>
    rw [eq]
    rcases eq_or_ne u t with rfl | hu
    · have hnext : m.code u = c ++ rest := Monitors.code_exec hm hcode
      rcases coming_body (hs.coming u) hcode hbody with hc | ⟨event, rfl, hf⟩
      · exact Or.inl (hnext ▸ hc)
      · exact Or.inr ⟨event, rest, hnext, hf.type, hf.check, hf.key, hf.done, hf.rest⟩
    · obtain ⟨hcheck, hdata⟩ := body_frame hs.sound hu hcode hbody
      exact (hs.coming u).congr (Monitors.code_other hm hu) hcheck hdata

/-! ## the threads that dispatch -/

/-- only the threads of `D` run `eventReceived` -/
def Dispatches (D : T → Prop) : Act T H → Prop
  | .eventReceived t _ => D t
  | _ => True

/-- the thread has at most a register or unregister operation to finish -/
def Registers (c : Code H) : Prop := ∃ o : Op H H, c <:+ register o

theorem Registers.tail {i : Instr Lock (Body H)} {c : Code H} (h : Registers (i :: c)) :
    Registers c := by
  obtain ⟨o, ho⟩ := h
  exact ⟨o, (List.suffix_cons i c).trans ho⟩

theorem Registers.update {x : Body H} {c : Code H} (h : Registers (.plain x :: c)) :
    ∃ o, x = .update o := by
  obtain ⟨o, ho⟩ := h
  have hmem : Instr.plain x ∈ register o := ho.subset List.mem_cons_self
  unfold register Instr.synchronized at hmem
  simp only [List.mem_cons, List.not_mem_nil, reduceCtorEq, Instr.plain.injEq, false_or,
    or_false] at hmem
  exact ⟨o, hmem⟩

theorem Registers.flat {c : Code H} (h : Registers c) : Monitors.Flat c := by
  rintro l rest rfl l'
  obtain ⟨o, ho⟩ := h
  unfold register Instr.synchronized at ho
  simp only [List.suffix_cons_iff, List.suffix_nil, reduceCtorEq, List.cons.injEq, false_and,
    or_false] at ho
  obtain ⟨hl, rfl⟩ := ho
  cases hl
  exact (balanced_register o).depth l' []

theorem registers_step {k : Nat} {D : T → Prop} {s s' : State T H} {a : Act T H}
    (hD : Dispatches D a) (hs : ∀ t, ¬ D t → Registers (s.monitors.code t))
    (h : step k s a = some s') : ∀ t, ¬ D t → Registers (s'.monitors.code t) := by
  intro u hu
  have same : ∀ {a : Monitors.Act T Lock (Body H)} {m : Monitors T Lock (Body H)},
      s.monitors.step a = some m → u ≠ a.thread → Registers (m.code u) := by
    intro a m hm hne
    rw [Monitors.code_other hm hne]
    exact hs u hu
  cases step_effect h with
  | register t o m hm eq =>
    rw [eq]
    rcases eq_or_ne u t with rfl | hut
    · exact ⟨o, by rw [(Monitors.code_start hm).2]⟩
    · exact same hm hut
  | eventReceived t event m hm eq =>
    rw [eq]
    rcases eq_or_ne u t with rfl | hut
    · exact absurd hD hu
    · exact same hm hut
  | enter t ops m hm eq =>
    rw [eq]
    rcases eq_or_ne u t with rfl | hut
    · obtain ⟨l, hcode⟩ := Monitors.code_enter hm
      exact (hcode ▸ hs u hu).tail
    · exact same hm hut
  | leave t ops m hm eq =>
    rw [eq]
    rcases eq_or_ne u t with rfl | hut
    · obtain ⟨l, hcode⟩ := Monitors.code_leave hm
      exact (hcode ▸ hs u hu).tail
    · exact same hm hut
  | body t ops x rest c r m hcode hbody hm eq =>
    rw [eq]
    rcases eq_or_ne u t with rfl | hut
    · have hreg := hcode ▸ hs u hu
      obtain ⟨o, rfl⟩ := hreg.update
      cases hbody
      show Registers (m.code u)
      rw [Monitors.code_exec hm hcode]
      exact hreg.tail
    · exact same hm hut

/-! ## the blocks are atomic -/

/-- where the event thread of `Dispatch` stands -/
def Stage (u : Dispatch.State H) : Phase → Prop
  | .done => ∃ out, u.call.pc = .returned out
  | .start event => u.call.pc = .start ∧ u.event = event
  | .control event => u.call.pc = .control ∧ u.event = event

def events : Dispatch.Act H → List BAEvent
  | .eventReceived event => [event]
  | .block _ => []

def Act.events : Act T H → List BAEvent
  | .eventReceived _ event => [event]
  | _ => []

/-- what the call of `eventReceived` delivers, after a block that makes it return -/
def delivery (u : Dispatch.State H) : Dispatch.Act H → List (BAEvent × Delivery H H)
  | .eventReceived _ => []
  | .block (.other _) => []
  | .block _ =>
    match u.call.pc with
    | .returned out => [(u.event, out)]
    | _ => []

/-- the deliveries of a run -/
def deliveries (k : Nat) : Dispatch.State H → List (Dispatch.Act H) → List (BAEvent × Delivery H H)
  | _, [] => []
  | u, b :: bs =>
    match Dispatch.step k u b with
    | some v => delivery v b ++ deliveries k v bs
    | none => []

theorem deliveries_append {k : Nat} {u v : Dispatch.State H} {bs : List (Dispatch.Act H)}
    (h : run (Dispatch.step k) u bs = some v) (cs : List (Dispatch.Act H)) :
    deliveries k u (bs ++ cs) = deliveries k u bs ++ deliveries k v cs := by
  induction bs generalizing u with
  | nil =>
    cases h
    rfl
  | cons a bs ih =>
    obtain ⟨m, hm, hrest⟩ := run_cons_some _ h
    simp only [List.cons_append, deliveries, hm, ih hrest, List.append_assoc]

theorem deliveries_one {k : Nat} {u v : Dispatch.State H} {b : Dispatch.Act H}
    (h : Dispatch.step k u b = some v) : deliveries k u [b] = delivery v b := by
  simp [deliveries, h]

/-- the threads have done what a run of `Dispatch` has done -/
structure Sim (k : Nat) (event : BAEvent) (d : T) (s : State T H) (bs : List (Dispatch.Act H))
    (u : Dispatch.State H) : Prop where
  run : run (Dispatch.step k) (Dispatch.init event) bs = some u
  tables : u.call.tables = s.tables
  updates : Dispatch.opsOf bs = s.updates
  delivered : deliveries k (Dispatch.init event) bs = s.delivered
  stage : Stage u (phase (s.checkControlQueue d) (s.monitors.code d))

omit [DecidableEq T] in
theorem Sim.init {k : Nat} {event : BAEvent} {d : T} :
    Sim k event d (init : State T H) [] (Dispatch.init event) where
  run := rfl
  tables := rfl
  updates := rfl
  delivered := rfl
  stage := ⟨_, rfl⟩

omit [DecidableEq T] in
theorem Sim.stay {k : Nat} {event : BAEvent} {d : T} {s s' : State T H}
    {bs : List (Dispatch.Act H)} {u : Dispatch.State H} (h : Sim k event d s bs u)
    (htables : s'.tables = s.tables) (hupdates : s'.updates = s.updates)
    (hdelivered : s'.delivered = s.delivered)
    (hstage : Stage u (phase (s'.checkControlQueue d) (s'.monitors.code d))) :
    Sim k event d s' bs u :=
  ⟨h.run, h.tables.trans htables.symm, h.updates.trans hupdates.symm,
    h.delivered.trans hdelivered.symm, hstage⟩

omit [DecidableEq T] in
theorem Sim.go {k : Nat} {event : BAEvent} {d : T} {s s' : State T H}
    {bs cs : List (Dispatch.Act H)} {u v : Dispatch.State H} (h : Sim k event d s bs u)
    (hcs : Run.run (Dispatch.step k) u cs = some v) (htables : v.call.tables = s'.tables)
    (hupdates : s'.updates = s.updates ++ Dispatch.opsOf cs)
    (hdelivered : s'.delivered = s.delivered ++ deliveries k u cs)
    (hstage : Stage v (phase (s'.checkControlQueue d) (s'.monitors.code d))) :
    Sim k event d s' (bs ++ cs) v where
  run := run_trans _ h.run hcs
  tables := htables
  updates := by
    rw [Dispatch.opsOf, List.filterMap_append, ← Dispatch.opsOf, h.updates, hupdates]
    rfl
  delivered := by rw [deliveries_append h.run, h.delivered, hdelivered]
  stage := hstage

omit [DecidableEq T] in
theorem Sim.idle {k : Nat} {event : BAEvent} {d : T} {s : State T H}
    {bs : List (Dispatch.Act H)} {u : Dispatch.State H} (h : Sim k event d s bs u)
    (hidle : s.monitors.code d = []) : ∃ out, u.call.pc = .returned out := by
  have hstage := h.stage
  rw [hidle] at hstage
  exact hstage

theorem phase_published {event : BAEvent} (h : event.type = some .publishedData) (check : Bool) :
    phase check (eventReceived event : Code H) = .start event := by
  rw [eventReceived, if_pos h]
  rfl

theorem phase_other {event : BAEvent} (h : event.type ≠ some .publishedData) :
    phase true (eventReceived event : Code H) = .control event := by
  rw [eventReceived, if_neg h]
  rfl

/-- the start of a call -/
theorem sim_eventReceived {k : Nat} {event : BAEvent} {d : T} {s s' : State T H}
    {bs : List (Dispatch.Act H)} {u : Dispatch.State H} (h : Sim k event d s bs u)
    {received : BAEvent} (ha : step k s (.eventReceived d received) = some s') :
    ∃ cs v, Sim k event d s' (bs ++ cs) v ∧ cs.flatMap events = [received] := by
  cases step_effect ha with
  | eventReceived _ _ m hm eq =>
    obtain ⟨hidle, hcode⟩ := Monitors.code_start hm
    obtain ⟨out, hout⟩ := h.idle hidle
    have hstart : Dispatch.step k u (.eventReceived received) =
        some ⟨{ u.call with pc := .start }, received⟩ := by
      unfold Dispatch.step
      rw [hout]
    by_cases hp : received.type = some .publishedData
    · refine ⟨[.eventReceived received], _, h.go (run_snoc _ (run_nil _ u) hstart) ?_ ?_ ?_ ?_, rfl⟩
      · rw [eq]
        exact h.tables
      · rw [eq]
        exact (List.append_nil _).symm
      · rw [eq, deliveries_one hstart]
        exact (List.append_nil _).symm
      · rw [eq]
        show Stage _ (phase _ (m.code d))
        rw [hcode, phase_published hp]
        exact ⟨rfl, rfl⟩
    · have hmiss : Dispatch.step k ⟨{ u.call with pc := .start }, received⟩ (.block .dataBlock) =
          some ⟨{ u.call with pc := .control }, received⟩ := by
        simp only [Dispatch.step, HashClassifierCallback.step, dataBlock, if_neg hp,
          Option.map_some]
      refine ⟨[.eventReceived received, .block .dataBlock], _,
        h.go (run_snoc _ (run_snoc _ (run_nil _ u) hstart) hmiss) ?_ ?_ ?_ ?_, rfl⟩
      · rw [eq]
        exact h.tables
      · rw [eq]
        exact (List.append_nil _).symm
      · rw [eq]
        simp only [deliveries, hstart, hmiss]
        exact (List.append_nil _).symm
      · have hcheck : s'.checkControlQueue d = true := by
          rw [eq]
          dsimp only
          rw [if_neg hp, Function.update_self]
        rw [hcheck, eq]
        show Stage _ (phase true (m.code d))
        rw [hcode, phase_other hp]
        exact ⟨rfl, rfl⟩

omit [DecidableEq T] in
/-- an update is an update, whoever makes it -/
theorem sim_update {k : Nat} {event : BAEvent} {d : T} {s s' : State T H}
    {bs : List (Dispatch.Act H)} {u : Dispatch.State H} (h : Sim k event d s bs u) (o : Op H H)
    (htables : s'.tables = apply k s.tables o) (hupdates : s'.updates = s.updates ++ [o])
    (hdelivered : s'.delivered = s.delivered)
    (hphase : phase (s'.checkControlQueue d) (s'.monitors.code d) =
      phase (s.checkControlQueue d) (s.monitors.code d)) :
    ∃ cs v, Sim k event d s' (bs ++ cs) v ∧ cs.flatMap events = [] := by
  have hstep : Dispatch.step k u (.block (.other o)) =
      some ⟨{ u.call with tables := apply k u.call.tables o }, u.event⟩ := rfl
  refine ⟨[.block (.other o)], _, h.go (run_snoc _ (run_nil _ u) hstep) ?_ hupdates ?_ ?_, rfl⟩
  · rw [htables, ← h.tables]
  · rw [hdelivered, deliveries_one hstep]
    exact (List.append_nil _).symm
  · rw [hphase]
    have hstage := h.stage
    cases hp : phase (s.checkControlQueue d) (s.monitors.code d) <;> rw [hp] at hstage <;>
      exact hstage

/-- the instructions of the thread that dispatches -/
theorem sim_body {k : Nat} {event : BAEvent} {d : T} {s s' r : State T H}
    {bs : List (Dispatch.Act H)} {u : Dispatch.State H} (h : Sim k event d s bs u)
    (hc : Coming s d) {ops : List (Op H H)} {x : Body H} {rest c : Code H}
    {m : Monitors T Lock (Body H)} (hcode : s.monitors.code d = .plain x :: rest)
    (hbody : body k s d ops x = some (c, r)) (hm : s.monitors.step (.exec d c) = some m)
    (eq : s' = { r with monitors := m }) :
    ∃ cs v, Sim k event d s' (bs ++ cs) v ∧ cs.flatMap events = [] := by
  have hnext : s'.monitors.code d = c ++ rest := by
    rw [eq]
    exact Monitors.code_exec hm hcode
  have hstage := h.stage
  rw [hcode] at hstage
  cases x with
  | update o =>
    cases hbody
    refine sim_update h o (eq ▸ rfl) (eq ▸ rfl) (eq ▸ rfl) ?_
    rw [hnext, hcode, eq]
    rfl
  | containsKey e =>
    obtain ⟨htype, hcontrol, _, _⟩ := hc.coherent hcode nofun
    obtain ⟨hpc, rfl⟩ : u.call.pc = .start ∧ u.event = e := hstage
    dsimp only [body] at hbody
    split at hbody
    · cases hbody
      refine ⟨[], u, (List.append_nil bs).symm ▸ h.stay (eq ▸ rfl) (eq ▸ rfl) (eq ▸ rfl) ?_, rfl⟩
      rw [hnext]
      exact ⟨hpc, rfl⟩
    · next hkey =>
      cases hbody
      have hmiss : dataBlock u.call.tables.dataHandlerMap u.event = none := by
        rw [dataBlock, if_pos htype, h.tables, hkey]
      have hstep : Dispatch.step k u (.block .dataBlock) =
          some ⟨{ u.call with pc := .control }, u.event⟩ := by
        simp [Dispatch.step, HashClassifierCallback.step, hpc, hmiss]
      refine ⟨[.block .dataBlock], _, h.go (run_snoc _ (run_nil _ u) hstep) ?_ ?_ ?_ ?_, rfl⟩
      · rw [eq]
        exact h.tables
      · rw [eq]
        exact (List.append_nil _).symm
      · rw [eq, deliveries_one hstep]
        exact (List.append_nil _).symm
      · have hcheck : s'.checkControlQueue d = true := by
          rw [eq]
          exact Function.update_self _ _ _
        rw [hnext, hcheck]
        show Stage _ (phase true rest)
        rw [hcontrol]
        exact ⟨rfl, rfl⟩
  | get e =>
    have hf := hc.found hcode
    obtain ⟨hpc, rfl⟩ : u.call.pc = .start ∧ u.event = e := hstage
    dsimp only [body] at hbody
    split at hbody
    · next handler hkey =>
      cases hbody
      have hhit : dataBlock u.call.tables.dataHandlerMap u.event = some handler := by
        rw [dataBlock, if_pos hf.type, h.tables, hkey]
      have hstep : Dispatch.step k u (.block .dataBlock) =
          some ⟨{ u.call with pc := .returned (.publishedData handler) }, u.event⟩ := by
        simp [Dispatch.step, HashClassifierCallback.step, hpc, hhit]
      refine ⟨[.block .dataBlock], _, h.go (run_snoc _ (run_nil _ u) hstep) ?_ ?_ ?_ ?_, rfl⟩
      · rw [eq]
        exact h.tables
      · rw [eq]
        exact (List.append_nil _).symm
      · rw [eq, deliveries_one hstep]
        rfl
      · have hcheck : s'.checkControlQueue d = false := by
          rw [eq]
          exact hf.check
        rw [hnext, hcheck, phase_register, hf.done]
        exact ⟨_, rfl⟩
    · cases hbody
  | checkControlQueue e =>
    obtain ⟨hdone, _⟩ := hc.coherent hcode nofun
    cases hbody
    refine ⟨[], u, (List.append_nil bs).symm ▸ h.stay (eq ▸ rfl) (eq ▸ rfl) (eq ▸ rfl) ?_, rfl⟩
    have hcheck : s'.checkControlQueue d = s.checkControlQueue d := by rw [eq]
    rw [hnext, hcheck]
    cases hb : s.checkControlQueue d with
    | true =>
      rw [hb] at hstage
      exact hstage
    | false =>
      rw [hb] at hstage
      show Stage u (phase false rest)
      rw [hdone]
      exact hstage
  | searchPrefix e =>
    obtain ⟨hdone, _⟩ := hc.coherent hcode nofun
    obtain ⟨hpc, rfl⟩ : u.call.pc = .control ∧ u.event = e := hstage
    cases hbody
    have hstep : Dispatch.step k u (.block .controlBlock) = some ⟨{ u.call with
        pc := .returned (controlBlock k u.call.tables.controlEventHandlerLPM u.event) },
        u.event⟩ := by
      simp [Dispatch.step, HashClassifierCallback.step, hpc]
    refine ⟨[.block .controlBlock], _, h.go (run_snoc _ (run_nil _ u) hstep) ?_ ?_ ?_ ?_, rfl⟩
    · rw [eq]
      exact h.tables
    · rw [eq]
      exact (List.append_nil _).symm
    · rw [eq, deliveries_one hstep, h.tables]
      rfl
    · rw [hnext]
      split
      · rw [phase_register, hdone]
        exact ⟨_, rfl⟩
      · rw [List.nil_append, hdone]
        exact ⟨_, rfl⟩

/-- **One instruction is what `Dispatch` does in no, one or two blocks.** -/
theorem sim_step {k : Nat} {event : BAEvent} {d : T} {s s' : State T H} {a : Act T H}
    {bs : List (Dispatch.Act H)} {u : Dispatch.State H} (h : Sim k event d s bs u)
    (hinv : Inv s) (hreg : ∀ t, t ≠ d → Registers (s.monitors.code t))
    (ha : Dispatches (fun t => t = d) a) (hstep : step k s a = some s') :
    ∃ cs v, Sim k event d s' (bs ++ cs) v ∧ cs.flatMap events = a.events := by
  have stay : a.events = [] → s'.tables = s.tables → s'.updates = s.updates →
      s'.delivered = s.delivered → phase (s'.checkControlQueue d) (s'.monitors.code d) =
        phase (s.checkControlQueue d) (s.monitors.code d) →
      ∃ cs v, Sim k event d s' (bs ++ cs) v ∧ cs.flatMap events = a.events := by
    intro hno htables hupdates hdelivered hphase
    refine ⟨[], u, ?_, hno.symm⟩
    rw [List.append_nil]
    exact h.stay htables hupdates hdelivered (hphase ▸ h.stage)
  cases step_effect hstep with
  | register t o m hm eq =>
    refine stay rfl (eq ▸ rfl) (eq ▸ rfl) (eq ▸ rfl) ?_
    rw [eq]
    rcases eq_or_ne d t with rfl | hd
    · obtain ⟨hidle, hcode⟩ := Monitors.code_start hm
      show phase _ (m.code d) = phase _ (s.monitors.code d)
      rw [hcode, hidle]
      rfl
    · exact congrArg (phase _) (Monitors.code_other hm hd)
  | eventReceived t received m hm eq =>
    cases show t = d from ha
    exact sim_eventReceived h hstep
  | enter t ops m hm eq =>
    refine stay rfl (eq ▸ rfl) (eq ▸ rfl) (eq ▸ rfl) ?_
    rw [eq]
    rcases eq_or_ne d t with rfl | hd
    · obtain ⟨l, hcode⟩ := Monitors.code_enter hm
      rw [hcode]
      rfl
    · exact congrArg (phase _) (Monitors.code_other hm hd)
  | leave t ops m hm eq =>
    refine stay rfl (eq ▸ rfl) (eq ▸ rfl) (eq ▸ rfl) ?_
    rw [eq]
    rcases eq_or_ne d t with rfl | hd
    · obtain ⟨l, hcode⟩ := Monitors.code_leave hm
      rw [hcode]
      rfl
    · exact congrArg (phase _) (Monitors.code_other hm hd)
  | body t ops x rest c r m hcode hbody hm eq =>
    rcases eq_or_ne t d with rfl | htd
    · exact sim_body h (hinv.coming t) hcode hbody hm eq
    · obtain ⟨o, rfl⟩ := (hcode ▸ hreg t htd).update
      cases hbody
      refine sim_update h o (eq ▸ rfl) (eq ▸ rfl) (eq ▸ rfl) ?_
      rw [eq]
      exact congrArg (phase _) (Monitors.code_other hm htd.symm)

theorem run_inv_monitors {k : Nat} {as : List (Act T H)} {s : State T H}
    (h : run (step k) init as = some s) : Inv s :=
  run_inv (I := Inv) (fun _ _ _ hs ha => hs.step ha) Inv.init h

/-- the threads outside `D` only register -/
theorem run_registers {k : Nat} {D : T → Prop} {as : List (Act T H)} {s : State T H}
    (h : run (step k) init as = some s) (hD : ∀ a ∈ as, Dispatches D a) :
    ∀ t, ¬ D t → Registers (s.monitors.code t) :=
  run_inv_along (C := fun _ a => Dispatches D a)
    (I := fun u : State T H => ∀ t, ¬ D t → Registers (u.monitors.code t))
    (fun _ _ _ ha hs h => registers_step ha hs h) (along_of_forall _ hD)
    (fun _ _ => ⟨.unregisterDataEventHandler [], List.nil_suffix⟩) h

theorem run_sim_dispatch {k : Nat} (event : BAEvent) {d : T} {as : List (Act T H)}
    {s : State T H} (h : run (step k) init as = some s)
    (hone : ∀ a ∈ as, Dispatches (fun t => t = d) a) :
    ∃ bs u, Sim k event d s bs u ∧ bs.flatMap events = as.flatMap Act.events := by
  refine (run_hist_along (C := fun _ a => Dispatches (fun t => t = d) a)
    (I := fun t done => (∀ a ∈ done, Dispatches (fun t => t = d) a) ∧
      ∃ bs u, Sim k event d t bs u ∧ bs.flatMap events = done.flatMap Act.events)
    ⟨List.forall_mem_nil _, [], Dispatch.init event, Sim.init, rfl⟩
    (fun t done a v ha hrun ht hv => ?_) (along_of_forall _ hone) h).2
  obtain ⟨hdone, bs, u, hsim, hevents⟩ := ht
  obtain ⟨cs, w, hsim', hevents'⟩ := sim_step hsim (run_inv_monitors hrun)
    (run_registers hrun hdone) ha hv
  refine ⟨fun b hb => ?_, bs ++ cs, w, hsim', ?_⟩
  · rcases List.mem_append.mp hb with hb | hb
    · exact hdone b hb
    · exact List.mem_singleton.mp hb ▸ ha
  · rw [List.flatMap_append, List.flatMap_append, hevents, hevents', List.flatMap_singleton]

/-- **The synchronized blocks are atomic.**  In every interleaving of the instructions of any
number of threads, of which one runs `eventReceived`, and whatever the handlers register inside
the blocks, the tables are those of a run of `Dispatch` that makes the same updates and receives
the same events in the same order and delivers the same, and the handler that `containsKey` found
is there when `get` looks for it. -/
theorem blocks_atomic (k : Nat) (event : BAEvent) (d : T) (as : List (Act T H)) (s : State T H)
    (h : run (step k) init as = some s)
    (hone : ∀ a ∈ as, Dispatches (fun t => t = d) a) :
    (∃ bs u, run (Dispatch.step k) (Dispatch.init event) bs = some u ∧
      u.call.tables = s.tables ∧ Dispatch.opsOf bs = s.updates ∧
      bs.flatMap events = as.flatMap Act.events ∧
      deliveries k (Dispatch.init event) bs = s.delivered ∧
      (s.monitors.code d = [] → ∃ out, u.call.pc = .returned out)) ∧
    ∀ t received rest, s.monitors.code t = .plain (.get received) :: rest →
      s.tables.dataHandlerMap.lookup (arraysHashCode received.id) ≠ none := by
  obtain ⟨bs, u, hsim, hevents⟩ := run_sim_dispatch event h hone
  have hinv := run_inv_monitors h
  exact ⟨⟨bs, u, hsim.run, hsim.tables, hsim.updates, hevents, hsim.delivered, hsim.idle⟩,
    fun t _ _ hcode => ((hinv.coming t).found hcode).key⟩

/-- thread 0 dispatches, its handler registers another one inside the block, and thread 1 waits
there to unregister the first -/
theorem blocks_atomic_reentrant :
    ∃ s : State Nat Nat, run (step 8) init
      [.register 1 (.registerDataEventHandler [] 7), .next 1 [], .next 1 [], .next 1 [],
        .eventReceived 0 ⟨some .publishedData, []⟩, .next 0 [],
        .register 1 (.unregisterDataEventHandler []), .next 0 [],
        .next 0 [.registerControlEventHandler [] 9], .next 0 [], .next 0 [], .next 0 [],
        .next 0 [], .next 1 [], .next 1 [], .next 0 []] = some s ∧
      s.delivered = [(⟨some .publishedData, []⟩, .publishedData 7)] ∧
      ∃ bs u, run (Dispatch.step 8) (Dispatch.init ⟨some .publishedData, []⟩) bs = some u ∧
        u.call.tables = s.tables ∧ Dispatch.opsOf bs = s.updates ∧
        deliveries 8 (Dispatch.init ⟨some .publishedData, []⟩) bs = s.delivered ∧
        ∃ out, u.call.pc = .returned out := by
  have hrun : run (step 8) (init : State Nat Nat)
      [.register 1 (.registerDataEventHandler [] 7), .next 1 [], .next 1 [], .next 1 [],
        .eventReceived 0 ⟨some .publishedData, []⟩, .next 0 [],
        .register 1 (.unregisterDataEventHandler []), .next 0 [],
        .next 0 [.registerControlEventHandler [] 9], .next 0 [], .next 0 [], .next 0 [],
        .next 0 [], .next 1 [], .next 1 [], .next 0 []] = some _ := rfl
  obtain ⟨⟨bs, u, hu, htables, hops, -, hdelivered, hidle⟩, -⟩ :=
    blocks_atomic 8 ⟨some .publishedData, []⟩ 0 _ _ hrun (by simp [Dispatches])
  exact ⟨_, hrun, rfl, bs, u, hu, htables, hops, hdelivered, hidle rfl⟩

/-! ## deadlocks -/

/-- some thread has something to do, and none can go on -/
def Deadlocked (k : Nat) (s : State T H) : Prop :=
  (∃ t, s.monitors.code t ≠ []) ∧ ∀ t ops, step k s (.next t ops) = none

/-- a thread that is ready can go on -/
theorem next_isSome {k : Nat} {s : State T H} {t : T} (hs : Inv s)
    (h : Monitors.Ready s.monitors t) (ops : List (Op H H)) :
    (step k s (.next t ops)).isSome := by
  cases hcode : s.monitors.code t with
  | nil => exact absurd hcode h.1
  | cons i rest =>
    cases i with
    | plain x =>
      have hexec : ∀ c, (s.monitors.step (.exec t c)).isSome := by
        intro c
        dsimp only [Monitors.step]
        rw [hcode]
        rfl
      have hbody : (body k s t ops x).isSome := by
        cases x with
        | get event =>
          obtain ⟨handler, hkey⟩ :=
            Option.ne_none_iff_exists'.mp ((hs.coming t).found hcode).key
          simp [body, hkey]
        | containsKey event =>
          dsimp only [body]
          split <;> rfl
        | _ => rfl
      obtain ⟨r, hr⟩ := Option.isSome_iff_exists.mp hbody
      obtain ⟨m, hm⟩ := Option.isSome_iff_exists.mp (hexec r.1)
      simp [step, hcode, hr, hm]
    | enter l =>
      obtain ⟨m, hm⟩ := Option.isSome_iff_exists.mp (h.enter hcode)
      simp [step, hcode, hm]
    | leave l =>
      obtain ⟨m, hm⟩ := Option.isSome_iff_exists.mp (hs.sound.leave hcode)
      simp [step, hcode, hm]

/-- a registration that nobody disturbs -/
theorem run_register (k : Nat) {s : State T H} {t : T} {o : Op H H}
    (hidle : s.monitors.code t = []) (hfree : s.monitors.owner (lockOf o) = none) :
    run (step k) s [.register t o, .next t [], .next t [], .next t []] =
      some { s with tables := apply k s.tables o, updates := s.updates ++ [o] } := by
  have hcode : Function.update s.monitors.code t [] = s.monitors.code := by
    rw [← hidle, Function.update_eq_self]
  have howner : Function.update s.monitors.owner (lockOf o) none = s.monitors.owner := by
    rw [← hfree, Function.update_eq_self]
  simp [run_cons, step, Monitors.step, register, Instr.synchronized, hidle, hfree, body, hcode,
    howner]

/-- a thread gets inside the block of the data table, and the handler goes on with `ops` -/
theorem run_dataBlock (k : Nat) {s : State T H} {t : T} {event : BAEvent} {handler : H}
    (ops : List (Op H H)) (hidle : s.monitors.code t = [])
    (hfree : s.monitors.owner .dataHandlerMap = none)
    (htype : event.type = some .publishedData)
    (hkey : s.tables.dataHandlerMap.lookup (arraysHashCode event.id) = some handler) :
    run (step k) s [.eventReceived t event, .next t [], .next t [], .next t ops] =
      some { s with
        monitors := ⟨Function.update s.monitors.owner .dataHandlerMap (some (t, 1)),
          Function.update s.monitors.code t (ops.flatMap register ++
            [.leave .dataHandlerMap, .plain (.checkControlQueue event)])⟩
        checkControlQueue := Function.update s.checkControlQueue t false
        delivered := s.delivered ++ [(event, .publishedData handler)] } := by
  simp [run_cons, step, Monitors.step, eventReceived, Instr.synchronized, hidle, hfree, htype,
    hkey, body]

/-- the same for the block of the control table -/
theorem run_controlBlock (k : Nat) {s : State T H} {t : T} {event : BAEvent} {handler : H}
    {method : ControlMethod} (ops : List (Op H H)) (hidle : s.monitors.code t = [])
    (hfree : s.monitors.owner .controlEventHandlerLPM = none)
    (htype : event.type ≠ some .publishedData)
    (hfound : controlBlock k s.tables.controlEventHandlerLPM event =
      (.control handler method : Delivery H H)) :
    run (step k) s [.eventReceived t event, .next t [], .next t [], .next t ops] =
      some { s with
        monitors := ⟨Function.update s.monitors.owner .controlEventHandlerLPM (some (t, 1)),
          Function.update s.monitors.code t (ops.flatMap register ++
            [.leave .controlEventHandlerLPM])⟩
        checkControlQueue := Function.update s.checkControlQueue t true
        delivered := s.delivered ++ [(event, .control handler method)] } := by
  simp [run_cons, step, Monitors.step, eventReceived, Instr.synchronized, hidle, hfree, htype,
    hfound, body, Dispatch.handlerOf]

/-- a thread that waits for the owner of a monitor -/
theorem next_blocked {k : Nat} {s : State T H} {t : T} {l : Lock} {rest : Code H} {p : T × Nat}
    (hcode : s.monitors.code t = .enter l :: rest) (howner : s.monitors.owner l = some p)
    (hp : p.1 ≠ t) (ops : List (Op H H)) : step k s (.next t ops) = none := by
  simp [step, Monitors.step, hcode, howner, hp]

/-- two threads, each inside the monitor that the other one wants to enter -/
theorem deadlocked_of_cross {k : Nat} {s : State T H} {t u : T} {l l' : Lock}
    {rest rest' : Code H} {n m : Nat} (htu : t ≠ u)
    (ht : s.monitors.code t = .enter l :: rest) (hl : s.monitors.owner l = some (u, n))
    (hu : s.monitors.code u = .enter l' :: rest') (hl' : s.monitors.owner l' = some (t, m))
    (hidle : ∀ w, w ≠ t → w ≠ u → s.monitors.code w = []) : Deadlocked k s := by
  refine ⟨⟨t, ht ▸ List.cons_ne_nil _ _⟩, fun w ops => ?_⟩
  rcases eq_or_ne w t with rfl | hwt
  · exact next_blocked ht hl htu.symm ops
  · rcases eq_or_ne w u with rfl | hwu
    · exact next_blocked hu hl' htu ops
    · dsimp only [step]
      rw [hidle w hwt hwu]

theorem searchPrefix_root (k : Nat) (h : H) :
    ((LPMTree.new : LPMTree H).add k [] h).searchPrefix k [] = some h := by
  simp [LPMTree.add, LPMTree.searchPrefix, LPMTree.tokenize, LPMTree.new, LPMTree.addLoop,
    LPMTree.searchLoop, Heap.setValue, Heap.deref, Node.setValue]

/-- two threads dispatch, and each handler registers in the table of the other -/
def crosswise (t u : T) (h : H) : List (Act T H) :=
  [.register t (.registerDataEventHandler [] h), .next t [], .next t [], .next t []] ++
    ([.register t (.registerControlEventHandler [] h), .next t [], .next t [], .next t []] ++
      ([.eventReceived t ⟨some .publishedData, []⟩, .next t [], .next t [],
          .next t [.registerControlEventHandler [] h]] ++
        [.eventReceived u ⟨some .startPublish, []⟩, .next u [], .next u [],
          .next u [.registerDataEventHandler [] h]]))

theorem crosswise_deadlocks (k : Nat) (h : H) {t u : T} (htu : t ≠ u) :
    ∃ s, run (step k) init (crosswise t u h) = some s ∧ Deadlocked k s := by
  have hkey : (apply k (apply k new (.registerDataEventHandler [] h : Op H H))
      (.registerControlEventHandler [] h)).dataHandlerMap.lookup (arraysHashCode []) = some h :=
    AList.lookup_insert _
  have hsearch : (apply k (apply k new (.registerDataEventHandler [] h : Op H H))
      (.registerControlEventHandler [] h)).controlEventHandlerLPM.searchPrefix k [] = some h :=
    searchPrefix_root k h
  have hfound : controlBlock k (apply k (apply k new (.registerDataEventHandler [] h : Op H H))
      (.registerControlEventHandler [] h)).controlEventHandlerLPM ⟨some .startPublish, []⟩ =
      (.control h .startPublish : Delivery H H) := by
    simp only [controlBlock, hsearch, methodOf]
  refine ⟨_, run_trans _ (run_register k rfl rfl) (run_trans _ (run_register k rfl rfl)
    (run_trans _ (run_dataBlock k [.registerControlEventHandler [] h] rfl rfl rfl hkey)
      (run_controlBlock k [.registerDataEventHandler [] h] ?_ ?_ nofun hfound))), ?_⟩
  · exact Function.update_of_ne htu.symm _ _
  · rfl
  · exact deadlocked_of_cross htu
      ((Function.update_of_ne htu _ _).trans (Function.update_self t _ _)) rfl
      (Function.update_self u _ _) rfl fun w hwt hwu =>
        (Function.update_of_ne hwu _ _).trans (Function.update_of_ne hwt _ _)

/-- **Deadlocks.**  Threads that register and unregister, and threads of `D` that dispatch, with
handlers that register whatever they like: no interleaving ends in a deadlock exactly when `D` has
at most one thread. -/
theorem deadlock_free_iff (k : Nat) (h : H) (D : T → Prop) :
    (∀ as s, run (step k) (init : State T H) as = some s → (∀ a ∈ as, Dispatches D a) →
      ¬ Deadlocked k s) ↔ ∀ t u, D t → D u → t = u := by
  constructor
  · intro hall t u ht hu
    by_contra htu
    obtain ⟨s, hrun, hdead⟩ := crosswise_deadlocks k h htu
    refine hall _ s hrun (fun a ha => ?_) hdead
    simp only [crosswise, List.mem_append, List.mem_cons, List.not_mem_nil, or_false] at ha
    rcases ha with (rfl | rfl | rfl | rfl) | (rfl | rfl | rfl | rfl) |
      (rfl | rfl | rfl | rfl) | rfl | rfl | rfl | rfl
    all_goals trivial
  · intro hone as s hrun hD hdead
    obtain ⟨⟨t, ht⟩, hstuck⟩ := hdead
    have hinv := run_inv_monitors hrun
    have hreg := run_registers hrun hD
    obtain ⟨d, hd⟩ : ∃ d, ∀ v, v ≠ d → ¬ D v := by
      by_cases hany : ∃ d, D d
      · obtain ⟨d, hd⟩ := hany
        exact ⟨d, fun v hv hDv => hv (hone v d hDv hd)⟩
      · exact ⟨t, fun v _ hDv => hany ⟨v, hDv⟩⟩
    obtain ⟨u, hu⟩ := Monitors.exists_ready hinv.sound d
      (fun v hv => (hreg v (hd v hv)).flat) ht
    have hgo : (step k s (.next u [])).isSome := next_isSome hinv hu []
    rw [hstuck u []] at hgo
    cases hgo

end

end Synchronized
end HashClassifierCallback
end BA
