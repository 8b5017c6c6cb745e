import BlackadderJNI.Callback.LPMTree
import BlackadderJNI.Lib.Replay

/-!
# The classifying callback

Translation of `callback/HashClassifierCallback.java`.

* `HashClassifierCallback`   the two tables: `dataHandlerMap`, a map from hashes, and
                             `controlEventHandlerLPM`;
* `dataBlock`, `controlBlock`   the two synchronized blocks of `eventReceived`;
* `Op`, `apply`, `after`     the four operations that register and unregister;
* `after_data`, `after_control`   each table depends only on the operations on it;
* `publishedData_exact`      when a data event goes to the handler of its identifier.
-/

namespace BA
open Replay

inductive BAEventType where
  | startPublish
  | stopPublish
  | scopePublished
  | scopeUnpublished
  | publishedData
  deriving DecidableEq, Repr

/-- `type` is null for a type byte that `getById` does not know -/
structure BAEvent where
  type : Option BAEventType
  id : Bytes
  deriving DecidableEq, Repr

/-- the methods of a `BAPushControlEventHandler` -/
inductive ControlMethod where
  | newData
  | scopePublished
  | scopeUnpublished
  | startPublish
  | stopPublish
  deriving DecidableEq, Repr

/-- what `eventReceived` does with the event; a `switch` on null throws -/
inductive Delivery (D C : Type) where
  | publishedData (handler : D)
  | control (handler : C) (method : ControlMethod)
  | noHandler
  | nullPointerException
  deriving DecidableEq, Repr

structure HashClassifierCallback (D C : Type) where
  dataHandlerMap : AList fun _ : Int32 => D
  controlEventHandlerLPM : LPMTree C

namespace HashClassifierCallback
variable {D C : Type}

def new : HashClassifierCallback D C := ⟨∅, LPMTree.new⟩

/-! ## `eventReceived` -/

/-- the branch on the event type and the block under `dataHandlerMap`; `none` when
`checkControlQueue` is true after it -/
def dataBlock (dataHandlerMap : AList fun _ : Int32 => D) (event : BAEvent) : Option D :=
  if event.type = some .publishedData then dataHandlerMap.lookup (arraysHashCode event.id)
  else none

def methodOf : BAEventType → ControlMethod
  | .publishedData => .newData
  | .scopePublished => .scopePublished
  | .scopeUnpublished => .scopeUnpublished
  | .startPublish => .startPublish
  | .stopPublish => .stopPublish

/-- the block under `controlEventHandlerLPM` -/
def controlBlock (scopeIdLen : Nat) (controlEventHandlerLPM : LPMTree C) (event : BAEvent) :
    Delivery D C :=
  match controlEventHandlerLPM.searchPrefix scopeIdLen event.id with
  | none => .noHandler
  | some handler =>
    match event.type with
    | some eventType => .control handler (methodOf eventType)
    | none => .nullPointerException

/-- the data handler found gets the event; without one `checkControlQueue` is true -/
def dispatch (found : Option D) (checkControl : Delivery D C) : Delivery D C :=
  match found with
  | some handler => .publishedData handler
  | none => checkControl

def eventReceived (scopeIdLen : Nat) (s : HashClassifierCallback D C) (event : BAEvent) :
    Delivery D C :=
  dispatch (dataBlock s.dataHandlerMap event)
    (controlBlock scopeIdLen s.controlEventHandlerLPM event)

/-! ## registrations -/

/-- the four operations on the tables; the handlers are not null -/
inductive Op (D C : Type) where
  | registerDataEventHandler (rid : Bytes) (handler : D)
  | unregisterDataEventHandler (rid : Bytes)
  | registerControlEventHandler (pre : Bytes) (handler : C)
  | unregisterControlEventHandler (pre : Bytes)

def apply (scopeIdLen : Nat) (s : HashClassifierCallback D C) :
    Op D C → HashClassifierCallback D C
  | .registerDataEventHandler rid handler =>
    { s with dataHandlerMap := s.dataHandlerMap.insert (arraysHashCode rid) handler }
  | .unregisterDataEventHandler rid =>
    { s with dataHandlerMap := s.dataHandlerMap.erase (arraysHashCode rid) }
  | .registerControlEventHandler pre handler =>
    { s with controlEventHandlerLPM := s.controlEventHandlerLPM.add scopeIdLen pre handler }
  | .unregisterControlEventHandler pre =>
    { s with controlEventHandlerLPM := (s.controlEventHandlerLPM.delete scopeIdLen pre).1 }

/-- the callback after a history of calls -/
def after (scopeIdLen : Nat) (ops : List (Op D C)) : HashClassifierCallback D C :=
  ops.foldl (apply scopeIdLen) new

/-- what an operation writes into the data table: the identifier, and the handler it leaves -/
def Op.dataWrite : Op D C → Option (Bytes × Option D)
  | .registerDataEventHandler rid handler => some (rid, some handler)
  | .unregisterDataEventHandler rid => some (rid, none)
  | _ => none

/-- the call an operation makes on the tree -/
def Op.controlOp : Op D C → Option (LPMTree.Op C)
  | .registerControlEventHandler pre handler => some (.add pre handler)
  | .unregisterControlEventHandler pre => some (.delete pre)
  | _ => none

/-- the hash under which a write reaches the data table -/
def writeHash (w : Bytes × Option D) : Int32 := arraysHashCode w.1

def dataWrites (ops : List (Op D C)) : List (Bytes × Option D) := ops.filterMap Op.dataWrite

def controlOps (ops : List (Op D C)) : List (LPMTree.Op C) := ops.filterMap Op.controlOp

theorem after_snoc (k : Nat) (ops : List (Op D C)) (o : Op D C) :
    after k (ops ++ [o]) = apply k (after k ops) o := by
  simp [after]

theorem dataWrites_snoc (ops : List (Op D C)) (o : Op D C) :
    dataWrites (ops ++ [o]) = dataWrites ops ++ o.dataWrite.toList := by
  cases h : o.dataWrite with
  | none => simp [dataWrites, h]
  | some w => simp [dataWrites, h]

theorem controlOps_snoc (ops : List (Op D C)) (o : Op D C) :
    controlOps (ops ++ [o]) = controlOps ops ++ o.controlOp.toList := by
  cases h : o.controlOp with
  | none => simp [controlOps, h]
  | some w => simp [controlOps, h]

theorem apply_data (k : Nat) (s : HashClassifierCallback D C) {o : Op D C}
    {w : Bytes × Option D} (ho : o.dataWrite = some w) (h : Int32) :
    (apply k s o).dataHandlerMap.lookup h =
      if h = writeHash w then w.2 else s.dataHandlerMap.lookup h := by
  cases o with
  | registerDataEventHandler rid handler =>
    cases ho
    show (AList.insert _ _ _).lookup h = _
    split_ifs with hk
    · rw [hk]
      exact AList.lookup_insert _
    · exact AList.lookup_insert_ne hk
  | unregisterDataEventHandler rid =>
    cases ho
    show (AList.erase _ _).lookup h = _
    split_ifs with hk
    · rw [hk]
      exact AList.lookup_erase _ _
    · exact AList.lookup_erase_ne hk
  | _ => cases ho

theorem apply_data_none (k : Nat) (s : HashClassifierCallback D C) {o : Op D C}
    (ho : o.dataWrite = none) : (apply k s o).dataHandlerMap = s.dataHandlerMap := by
  cases o with
  | registerControlEventHandler pre handler => rfl
  | unregisterControlEventHandler pre => rfl
  | _ => cases ho

theorem apply_data_control (k : Nat) (s : HashClassifierCallback D C) {o : Op D C}
    {w : Bytes × Option D} (ho : o.dataWrite = some w) :
    (apply k s o).controlEventHandlerLPM = s.controlEventHandlerLPM := by
  cases o with
  | registerDataEventHandler rid handler => rfl
  | unregisterDataEventHandler rid => rfl
  | _ => cases ho

theorem after_data (k : Nat) (ops : List (Op D C)) (h : Int32) :
    (after k ops).dataHandlerMap.lookup h = replay writeHash Prod.snd (dataWrites ops) h := by
  induction ops using List.reverseRecOn with
  | nil => rfl
  | append_singleton ops o ih =>
    rw [after_snoc, dataWrites_snoc]
    cases ho : o.dataWrite with
    | none =>
      rw [apply_data_none k _ ho, ih]
      exact congrArg (fun l => replay writeHash Prod.snd l h) (List.append_nil _).symm
    | some w =>
      show _ = replay writeHash Prod.snd (dataWrites ops ++ [w]) h
      rw [apply_data k _ ho, replay_snoc, Function.update_apply, ih]

theorem after_control (k : Nat) (ops : List (Op D C)) :
    (after k ops).controlEventHandlerLPM = LPMTree.after k (controlOps ops) := by
  induction ops using List.reverseRecOn with
  | nil => rfl
  | append_singleton ops o ih =>
    rw [after_snoc, controlOps_snoc]
    cases o with
    | registerControlEventHandler pre handler =>
      show LPMTree.apply k _ (.add pre handler) = LPMTree.after k (_ ++ [.add pre handler])
      rw [ih, LPMTree.after_snoc]
    | unregisterControlEventHandler pre =>
      show LPMTree.apply k _ (.delete pre) = LPMTree.after k (_ ++ [.delete pre])
      rw [ih, LPMTree.after_snoc]
    | _ => exact ih.trans (congrArg (LPMTree.after k) (List.append_nil _).symm)

/-! ## exact delivery of published data -/

/-- the handler most recently registered for the identifier `id` itself, `none` when an
`unregisterDataEventHandler` for it followed -/
def registered (ops : List (Op D C)) (id : Bytes) : Option D :=
  replay Prod.fst Prod.snd (dataWrites ops) id

/-- the delivery of published data by identifiers instead of hashes -/
def exactDelivery (k : Nat) (ops : List (Op D C)) (id : Bytes) : Delivery D C :=
  dispatch (registered ops id)
    (controlBlock k (after k ops).controlEventHandlerLPM ⟨some .publishedData, id⟩)

theorem controlBlock_ne (k : Nat) (t : LPMTree C) (event : BAEvent) (handler : D) :
    controlBlock k t event ≠ .publishedData handler := by
  unfold controlBlock
  split
  · exact fun h => by cases h
  · split
    · exact fun h => by cases h
    · exact fun h => by cases h

theorem dispatch_inj (k : Nat) (t : LPMTree C) (event : BAEvent) (o o' : Option D) :
    dispatch o (controlBlock k t event) = dispatch o' (controlBlock k t event) ↔ o = o' := by
  refine ⟨fun h => ?_, fun h => by rw [h]⟩
  cases o with
  | none =>
    cases o' with
    | none => rfl
    | some handler => exact absurd h (controlBlock_ne k t event handler)
  | some handler =>
    cases o' with
    | none => exact absurd h.symm (controlBlock_ne k t event handler)
    | some handler' => exact congrArg some (Delivery.publishedData.inj h)

theorem eventReceived_data (k : Nat) (ops : List (Op D C)) (id : Bytes) :
    eventReceived k (after k ops) ⟨some .publishedData, id⟩ =
      dispatch (replay writeHash Prod.snd (dataWrites ops) (arraysHashCode id))
        (controlBlock k (after k ops).controlEventHandlerLPM ⟨some .publishedData, id⟩) := by
  rw [← after_data k]
  rfl

/-- **Exact delivery of published data.**  The event goes to the handler of its own identifier
exactly when the last write under the hash of the identifier leaves what the last write for the
identifier itself leaves; and a further write for another identifier leaves the delivery alone
exactly when that identifier has another hash or the write leaves the handler that was there. -/
theorem publishedData_exact (k : Nat) (ops : List (Op D C)) (id : Bytes) :
    (eventReceived k (after k ops) ⟨some .publishedData, id⟩ = exactDelivery k ops id ↔
      LastAgree Prod.fst Prod.snd arraysHashCode (dataWrites ops) id) ∧
    (∀ o w, o.dataWrite = some w → w.1 ≠ id →
      (eventReceived k (after k (ops ++ [o])) ⟨some .publishedData, id⟩ =
          eventReceived k (after k ops) ⟨some .publishedData, id⟩ ↔
        (arraysHashCode w.1 = arraysHashCode id →
          w.2 = lastWrite Prod.snd (fun w' => arraysHashCode w'.1 = arraysHashCode id)
            (dataWrites ops)))) := by
  constructor
  · rw [eventReceived_data, lastAgree_iff]
    exact dispatch_inj k _ _ _ _
  · intro o w ho _
    have hc : (after k (ops ++ [o])).controlEventHandlerLPM =
        (after k ops).controlEventHandlerLPM := by
      rw [after_snoc, apply_data_control k _ ho]
    have hw : dataWrites (ops ++ [o]) = dataWrites ops ++ [w] := by
      rw [dataWrites_snoc, ho]
      rfl
    rw [eventReceived_data, eventReceived_data, hc, dispatch_inj, hw, replay_snoc,
      replay_eq_lastWrite, Function.update_apply]
    by_cases hh : arraysHashCode id = writeHash w
    · rw [if_pos hh]
      exact ⟨fun e _ => e, fun e => e hh.symm⟩
    · rw [if_neg hh, replay_eq_lastWrite]
      exact ⟨fun _ e => absurd e.symm hh, fun _ => rfl⟩

/-- two identifiers with one hash -/
def oneItem : Bytes := [0, 31, 0, 0, 0, 0, 0, 0]
def otherItem : Bytes := [1, 0, 0, 0, 0, 0, 0, 0]

/-- three registrations, the last one for `oneItem` -/
def reregistered : List (Op Nat Nat) :=
  [.registerDataEventHandler otherItem 1, .registerControlEventHandler [] 7,
    .registerDataEventHandler oneItem 2]

theorem publishedData_exact_reregistered :
    eventReceived 8 (after 8 reregistered) ⟨some .publishedData, oneItem⟩ =
      exactDelivery 8 reregistered oneItem ∧
    eventReceived 8 (after 8 (reregistered ++ [.unregisterDataEventHandler [1]]))
        ⟨some .publishedData, oneItem⟩ =
      eventReceived 8 (after 8 reregistered) ⟨some .publishedData, oneItem⟩ :=
  ⟨(publishedData_exact 8 reregistered oneItem).1.mpr (by decide),
    ((publishedData_exact 8 reregistered oneItem).2 (.unregisterDataEventHandler [1]) ([1], none)
      rfl (by decide)).mpr (by decide)⟩

/-- An event reaches a handler that was registered for another identifier only, and is not
delivered after another identifier was unregistered. -/
theorem publishedData_collides :
    (¬ ∀ (ops : List (Op Nat Nat)) (id : Bytes),
      eventReceived 8 (after 8 ops) ⟨some .publishedData, id⟩ = exactDelivery 8 ops id) ∧
    (¬ ∀ (ops : List (Op Nat Nat)) (o : Op Nat Nat) (w : Bytes × Option Nat) (id : Bytes),
      o.dataWrite = some w → w.1 ≠ id →
      eventReceived 8 (after 8 (ops ++ [o])) ⟨some .publishedData, id⟩ =
        eventReceived 8 (after 8 ops) ⟨some .publishedData, id⟩) := by
  constructor
  · intro h
    exact absurd (h [.registerDataEventHandler oneItem 1] otherItem) (by decide)
  · intro h
    exact absurd (h [.registerDataEventHandler otherItem 1] (.unregisterDataEventHandler oneItem)
      (oneItem, none) otherItem rfl (by decide)) (by decide)

end HashClassifierCallback

end BA
