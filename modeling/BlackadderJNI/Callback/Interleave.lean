import BlackadderJNI.Callback.HashClassifier
import BlackadderJNI.Lib.Run

/-!
# One call of `eventReceived` among registrations by other threads

Every synchronized block is one step.  `eventReceived` has two of them, under two locks, and the
other threads may register and unregister before, between and after them.

* `Call`, `step`             the two tables, and how far the call has come;
* `Outcome`                  the delivery combines the data table at one instant with the control
                             table at the same or a later one;
* `eventReceived_instants`   what follows for the delivery of the whole call.
-/

namespace BA
namespace HashClassifierCallback
open Run

variable {D C : Type}

inductive Pc (D C : Type) where
  | start
  /-- `checkControlQueue` is true -/
  | control
  | returned (out : Delivery D C)

structure Call (D C : Type) where
  tables : HashClassifierCallback D C
  pc : Pc D C

inductive Act (D C : Type) where
  | other (o : Op D C)
  | dataBlock
  | controlBlock

def step (scopeIdLen : Nat) (event : BAEvent) (s : Call D C) : Act D C → Option (Call D C)
  | .other o => some { s with tables := apply scopeIdLen s.tables o }
  | .dataBlock =>
    match s.pc with
    | .start =>
      match dataBlock s.tables.dataHandlerMap event with
      | some handler => some { s with pc := .returned (.publishedData handler) }
      | none => some { s with pc := .control }
    | _ => none
  | .controlBlock =>
    match s.pc with
    | .control =>
      some { s with
        pc := .returned (controlBlock scopeIdLen s.tables.controlEventHandlerLPM event) }
    | _ => none

/-- the delivery `out` of a call from `s` that has come through `as` -/
def Outcome (k : Nat) (event : BAEvent) (s : Call D C) (as : List (Act D C))
    (out : Delivery D C) : Prop :=
  ∃ bs d c, bs <+: as ∧ Visits (step k event) s bs d ∧ run (step k event) s bs = some c ∧
    out = dispatch (dataBlock d.tables.dataHandlerMap event)
      (controlBlock k c.tables.controlEventHandlerLPM event)

/-- what is known of the call by where it stands -/
def Progress (k : Nat) (event : BAEvent) (s t : Call D C) (as : List (Act D C)) : Prop :=
  match t.pc with
  | .start => True
  | .control => ∃ d, Visits (step k event) s as d ∧ dataBlock d.tables.dataHandlerMap event = none
  | .returned out => Outcome k event s as out

theorem Progress.snoc {k : Nat} {event : BAEvent} {s t u : Call D C} {as : List (Act D C)}
    (a : Act D C) (h : Progress k event s t as) (hpc : u.pc = t.pc) :
    Progress k event s u (as ++ [a]) := by
  have hpre : as <+: as ++ [a] := List.prefix_append _ _
  unfold Progress at h ⊢
  rw [hpc]
  cases hp : t.pc with
  | start => trivial
  | control =>
    rw [hp] at h
    obtain ⟨d, hd, hnone⟩ := h
    exact ⟨d, hd.mono hpre, hnone⟩
  | returned out =>
    rw [hp] at h
    obtain ⟨bs, d, c, hb, hd, hc, e⟩ := h
    exact ⟨bs, d, c, hb.trans hpre, hd, hc, e⟩

theorem progress_step {k : Nat} {event : BAEvent} {s t u : Call D C} {as : List (Act D C)}
    {a : Act D C} (hrun : run (step k event) s as = some t) (h : Progress k event s t as)
    (ha : step k event t a = some u) : Progress k event s u (as ++ [a]) := by
  have hpre : as <+: as ++ [a] := List.prefix_append _ _
  cases a with
  | other o =>
    cases ha
    exact h.snoc _ rfl
  | dataBlock =>
    dsimp only [step] at ha
    split at ha
    · split at ha
      · next handler hd =>
        cases ha
        exact ⟨as, t, t, hpre, Visits.last hrun, hrun, by rw [hd]; rfl⟩
      · next hd =>
        cases ha
        exact ⟨t, (Visits.last hrun).mono hpre, hd⟩
    · cases ha
  | controlBlock =>
    dsimp only [step] at ha
    split at ha
    · next hpc =>
      cases ha
      unfold Progress at h
      rw [hpc] at h
      obtain ⟨d, hd, hnone⟩ := h
      exact ⟨as, d, t, hpre, hd, hrun, by rw [hnone]; rfl⟩
    · cases ha

theorem outcome_of_run {k : Nat} {event : BAEvent} {s t : Call D C} {as : List (Act D C)}
    {out : Delivery D C} (hs : s.pc = .start) (h : run (step k event) s as = some t)
    (ht : t.pc = .returned out) : Outcome k event s as out := by
  have hI := run_hist (I := fun u done => run (step k event) s done = some u ∧
      Progress k event s u done)
    ⟨rfl, by unfold Progress; rw [hs]; trivial⟩
    (fun u done a v hu ha => ⟨run_snoc (step k event) hu.1 ha, progress_step hu.1 hu.2 ha⟩) h
  have hp := hI.2
  unfold Progress at hp
  rw [ht] at hp
  exact hp

/-- some handler is called -/
def Handled (out : Delivery D C) : Prop := out ≠ .noHandler ∧ out ≠ .nullPointerException

instance [DecidableEq D] [DecidableEq C] (out : Delivery D C) : Decidable (Handled out) :=
  inferInstanceAs (Decidable (_ ∧ _))

theorem controlBlock_handled {k : Nat} {t : LPMTree C} {event : BAEvent}
    (hknown : event.type ≠ none) (h : t.searchPrefix k event.id ≠ none) :
    Handled (controlBlock k t event : Delivery D C) := by
  obtain ⟨handler, hh⟩ := Option.ne_none_iff_exists'.mp h
  obtain ⟨ty, ht⟩ := Option.ne_none_iff_exists'.mp hknown
  unfold controlBlock
  rw [hh, ht]
  exact ⟨nofun, nofun⟩

theorem dispatch_handled {o : Option D} {rest : Delivery D C} (h : o ≠ none ∨ Handled rest) :
    Handled (dispatch o rest) := by
  cases o with
  | some handler => exact ⟨nofun, nofun⟩
  | none => exact h.resolve_left fun hn => hn rfl

/-- the data table of the instant `d` with the control table of the instant `c`, among the instants
of a call: one of them decides, unless a data handler appeared before the control lookup came to
its answer -/
theorem dispatch_instants (k : Nat) (event : BAEvent) (V : Call D C → Prop) {d c : Call D C}
    (hd : V d) (hc : V c) :
    (∃ m, V m ∧ dispatch (dataBlock d.tables.dataHandlerMap event)
        (controlBlock k c.tables.controlEventHandlerLPM event) = eventReceived k m.tables event) ∨
      (event.type = some .publishedData ∧ dataBlock d.tables.dataHandlerMap event = none ∧
        dataBlock c.tables.dataHandlerMap event ≠ none ∧
        ∀ m, V m → dataBlock m.tables.dataHandlerMap event = none →
          (controlBlock k m.tables.controlEventHandlerLPM event : Delivery D C) ≠
            controlBlock k c.tables.controlEventHandlerLPM event) := by
  cases hdata : dataBlock d.tables.dataHandlerMap event with
  | some handler =>
    refine Or.inl ⟨d, hd, ?_⟩
    rw [eventReceived, hdata]
    rfl
  | none =>
    by_cases hm : ∃ m, V m ∧ dataBlock m.tables.dataHandlerMap event = none ∧
        (controlBlock k m.tables.controlEventHandlerLPM event : Delivery D C) =
          controlBlock k c.tables.controlEventHandlerLPM event
    · obtain ⟨m, hv, hnone, hcontrol⟩ := hm
      refine Or.inl ⟨m, hv, ?_⟩
      rw [eventReceived, hnone, hcontrol]
    · have hsome : dataBlock c.tables.dataHandlerMap event ≠ none := fun h => hm ⟨c, hc, h, rfl⟩
      refine Or.inr ⟨?_, rfl, hsome, fun m hv hnone hcontrol => hm ⟨m, hv, hnone, hcontrol⟩⟩
      by_contra hty
      exact hsome (if_neg hty)

/-- **One call among other threads.**  The delivery is that of a sequential call with the data
table of one instant and the control table of the same or a later instant; it is that of a single
instant unless a data handler for the event appeared first, and the control lookup came to its
answer only with the data handler there; and a handler is called if at every instant some data
handler matches, or at every instant some control handler matches. -/
theorem eventReceived_instants (k : Nat) (event : BAEvent) (hknown : event.type ≠ none)
    (s t : Call D C) (hs : s.pc = .start) (as : List (Act D C)) (out : Delivery D C)
    (h : run (step k event) s as = some t) (ht : t.pc = .returned out) :
    ∃ bs d c, bs <+: as ∧ Visits (step k event) s bs d ∧ run (step k event) s bs = some c ∧
      out = dispatch (dataBlock d.tables.dataHandlerMap event)
        (controlBlock k c.tables.controlEventHandlerLPM event) ∧
      ((∃ m, Visits (step k event) s as m ∧ out = eventReceived k m.tables event) ∨
        (event.type = some .publishedData ∧
          dataBlock d.tables.dataHandlerMap event = none ∧
          dataBlock c.tables.dataHandlerMap event ≠ none ∧
          ∀ m, Visits (step k event) s as m → dataBlock m.tables.dataHandlerMap event = none →
            (controlBlock k m.tables.controlEventHandlerLPM event : Delivery D C) ≠
              controlBlock k c.tables.controlEventHandlerLPM event)) ∧
      ((∀ m, Visits (step k event) s as m → dataBlock m.tables.dataHandlerMap event ≠ none) →
        Handled out) ∧
      ((∀ m, Visits (step k event) s as m →
          m.tables.controlEventHandlerLPM.searchPrefix k event.id ≠ none) → Handled out) := by
  obtain ⟨bs, d, c, hb, hd, hc, e⟩ := outcome_of_run hs h ht
  have hd' : Visits (step k event) s as d := hd.mono hb
  have hc' : Visits (step k event) s as c := (Visits.last hc).mono hb
  refine ⟨bs, d, c, hb, hd, hc, e, e ▸ dispatch_instants k event _ hd' hc', ?_, ?_⟩
  · intro hall
    exact e ▸ dispatch_handled (Or.inl (hall d hd'))
  · intro hall
    exact e ▸ dispatch_handled (Or.inr (controlBlock_handled hknown (hall c hc')))

/-- published data under a scope with a control handler -/
def newItem : BAEvent := ⟨some .publishedData, oneItem ++ otherItem⟩

def scopeOnly : Call Nat Nat := ⟨after 8 [.registerControlEventHandler oneItem 7], .start⟩

/-- the data handler comes too late for the event, the scope keeps its handler -/
def lateHandler : List (Act Nat Nat) :=
  [.dataBlock, .other (.registerDataEventHandler newItem.id 1), .controlBlock]

theorem eventReceived_instants_late :
    (∀ m, Visits (step 8 newItem) scopeOnly lateHandler m →
      m.tables.controlEventHandlerLPM.searchPrefix 8 newItem.id ≠ none) ∧
    Handled (.control 7 .newData : Delivery Nat Nat) := by
  have hall : ∀ m, Visits (step 8 newItem) scopeOnly lateHandler m →
      m.tables.controlEventHandlerLPM.searchPrefix 8 newItem.id ≠ none := by decide
  obtain ⟨_, _, _, _, _, _, _, _, _, hcontrol⟩ :=
    eventReceived_instants 8 newItem (by decide) scopeOnly
      ⟨apply 8 scopeOnly.tables (.registerDataEventHandler newItem.id 1),
        .returned (.control 7 .newData)⟩
      rfl lateHandler (.control 7 .newData) rfl rfl
  exact ⟨hall, hcontrol hall⟩

/-- The data handler is registered, then the control handler dropped, between the two blocks:
some handler matches at every instant, and none is called. -/
theorem handOver_loses :
    ¬ ∀ (as : List (Act Nat Nat)) (t : Call Nat Nat) (out : Delivery Nat Nat),
      run (step 8 newItem) scopeOnly as = some t → t.pc = .returned out →
      (∃ m, Visits (step 8 newItem) scopeOnly as m ∧ out = eventReceived 8 m.tables newItem) ∧
      ((∀ m, Visits (step 8 newItem) scopeOnly as m →
        Handled (eventReceived 8 m.tables newItem)) → Handled out) := by
  intro h
  have hall : ∀ m, Visits (step 8 newItem) scopeOnly [.dataBlock,
        .other (.registerDataEventHandler newItem.id 1),
        .other (.unregisterControlEventHandler oneItem), .controlBlock] m →
      Handled (eventReceived 8 m.tables newItem) := by decide
  have hout := (h _ ⟨after 8 [.registerControlEventHandler oneItem 7,
    .registerDataEventHandler newItem.id 1, .unregisterControlEventHandler oneItem],
    .returned .noHandler⟩ .noHandler rfl rfl).2 hall
  exact hout.1 rfl

end HashClassifierCallback
end BA
