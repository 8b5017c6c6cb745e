import BlackadderJNI.Native.PublishMemory
import BlackadderJNI.Native.SendOrder

/-!
# Published data as a snapshot

* `Evolves`, `Keeps`   what a step may do to the memory: owners stay, freed blocks stay freed;
                       and the blocks of one call stay as they are;
* `Holds`              a message whose blocks are its own, allocated by its call, with the bytes
                       of the snapshot;
* `Effect`             what one step can do;
* `Inv`                the invariant of runs in which no buffer message enters the queue;
* `run_onPath`         a run, without the memory, is a run of the send path;
* `Snapshot`           published data is a copy that the native code owns, at every message;
* `snapshot_iff`       it holds in every state of a run exactly when no message that points into
                       a Java buffer enters the queue.
-/

namespace BA
namespace PublishMemory
open Run
open SendPath (Tid)

/-! ## the memory under the steps -/

/-- owners stay, and freed blocks stay freed -/
def Evolves (m m' : List Cell) : Prop :=
  ∀ (p : Addr) (c : Cell), m[p]? = some c → ∃ c', m'[p]? = some c' ∧ c'.owner = c.owner ∧
    (c.live = false → c'.live = false)

/-- the blocks of the call `call` stay as they are -/
def Keeps (call : Nat) (m m' : List Cell) : Prop :=
  ∀ (p : Addr) (c : Cell), m[p]? = some c → c.owner = .native call → m'[p]? = some c

theorem Evolves.refl (m : List Cell) : Evolves m m := fun _ c h => ⟨c, h, rfl, id⟩

theorem evolves_append (m new : List Cell) : Evolves m (m ++ new) := by
  intro p c h
  have hp : p < m.length := (List.getElem?_eq_some_iff.mp h).1
  exact ⟨c, (List.getElem?_append_left hp).trans h, rfl, id⟩

theorem keeps_append (call : Nat) (m new : List Cell) : Keeps call m (m ++ new) := by
  intro p c h _
  have hp : p < m.length := (List.getElem?_eq_some_iff.mp h).1
  exact (List.getElem?_append_left hp).trans h

theorem evolves_modify (m : List Cell) (b : Addr) (f : Cell → Cell)
    (hf : ∀ c, (f c).owner = c.owner ∧ (c.live = false → (f c).live = false)) :
    Evolves m (m.modify b f) := by
  intro p c h
  rw [List.getElem?_modify, h]
  by_cases hp : b = p
  · exact ⟨f c, by simp [hp], hf c⟩
  · exact ⟨c, by simp [hp], rfl, id⟩

/-- a change of a Java block keeps the blocks of every call -/
theorem keeps_modify (call : Nat) {m : List Cell} {b : Addr} {cell : Cell}
    (hb : m[b]? = some cell) (hj : cell.owner = .java) (f : Cell → Cell) :
    Keeps call m (m.modify b f) := by
  intro p c h hc
  have hp : b ≠ p := by
    rintro rfl
    rw [hb] at h
    cases h
    rw [hj] at hc
    cases hc
  rw [List.getElem?_modify, h]
  simp [hp]

theorem getElem?_freeAll (m : List Cell) (ps : List Addr) (p : Addr) :
    (ps.foldl free m)[p]? =
      (m[p]?).map fun c => if p ∈ ps then { c with live := false } else c := by
  induction ps generalizing m with
  | nil => simp
  | cons q ps ih =>
    rw [List.foldl_cons, ih]
    unfold free
    rw [List.getElem?_modify]
    cases hm : m[p]? with
    | none => simp
    | some c =>
      by_cases hq : q = p
      · simp [hq]
      · have hq' : ¬ p = q := fun e => hq e.symm
        simp [hq, hq']

theorem evolves_freeAll (m : List Cell) (ps : List Addr) : Evolves m (ps.foldl free m) := by
  intro p c h
  rw [getElem?_freeAll, h]
  by_cases hp : p ∈ ps
  · exact ⟨{ c with live := false }, by simp [hp], rfl, fun _ => rfl⟩
  · exact ⟨c, by simp [hp], rfl, id⟩

/-- freeing the blocks of one call keeps those of another -/
theorem keeps_freeAll {call call' : Nat} {m : List Cell} {ps : List Addr}
    (hps : ∀ p ∈ ps, ∃ c, m[p]? = some c ∧ c.owner = .native call') (hne : call ≠ call') :
    Keeps call m (ps.foldl free m) := by
  intro p c h hc
  have hp : p ∉ ps := by
    intro hp
    obtain ⟨c', h', hc'⟩ := hps p hp
    rw [h] at h'
    cases h'
    rw [hc] at hc'
    exact hne (Owner.native.inj hc')
  rw [getElem?_freeAll, h, Option.map_some, if_neg hp]

/-! ## messages and their blocks -/

structure Holds (m : List Cell) (msg : Msg) : Prop where
  blocks : ∀ p ∈ msg.blocks, ∃ c, m[p]? = some c ∧ c.owner = .native msg.call ∧ c.live = true
  nodup : msg.blocks.Nodup
  payload : payloadBytes m msg = msg.snapshot

theorem Msg.payload_mem_blocks {msg : Msg} {p : Addr} {n : Nat} (h : msg.payload = some (p, n)) :
    p ∈ msg.blocks := by
  simp [Msg.blocks, h]

theorem Holds.keep {m m' : List Cell} {msg : Msg} (h : Holds m msg)
    (hk : Keeps msg.call m m') : Holds m' msg := by
  refine ⟨fun p hp => ?_, h.nodup, ?_⟩
  · obtain ⟨c, hc, ho, hl⟩ := h.blocks p hp
    exact ⟨c, hk p c hc ho, ho, hl⟩
  · rw [← h.payload]
    unfold payloadBytes
    cases hpay : msg.payload with
    | none => rfl
    | some q =>
      obtain ⟨p, n⟩ := q
      obtain ⟨c, hc, ho, _⟩ := h.blocks p (Msg.payload_mem_blocks hpay)
      simp only [hc, hk p c hc ho]

/-- the message points into a Java buffer -/
def Msg.direct (msg : Msg) : Bool :=
  match msg.source with
  | .buffer _ => true
  | _ => false

/-! ## what one step does -/

/-- the step of the send path behind a step, if there is one -/
def Act.onPath : Act → List (SendPath.Act Msg)
  | .enqueue t msg => [.enqueue t msg]
  | .path a => [a]
  | _ => []

theorem writeBuffer_eff {s s' : State} {b : Addr} {bytes : Bytes}
    (h : writeBuffer s b bytes = some s') :
    ∃ cell, s.memory[b]? = some cell ∧ cell.owner = .java ∧
      s' = { s with memory := s.memory.modify b fun c => { c with bytes := bytes } } := by
  unfold writeBuffer at h
  split at h
  · next cell hb =>
    split at h
    · next hc =>
      cases h
      exact ⟨cell, hb, hc.1, rfl⟩
    · cases h
  · cases h

theorem writeArray_eff {s s' : State} {a : Nat} {bytes : Bytes}
    (h : writeArray s a bytes = some s') : s' = { s with arrays := s.arrays.set a bytes } := by
  unfold writeArray at h
  split at h
  · split at h
    · cases h
      rfl
    · cases h
  · cases h

theorem request_eff {s s' : State} {t : Tid} {buffer : Bytes}
    (h : request s t buffer = some s') :
    ∃ msg, s' = issue s t [[], buffer] msg ∧ msg.call = s.calls ∧ msg.direct = false ∧
      Holds s'.memory msg := by
  unfold request at h
  split at h
  · cases h
    refine ⟨_, rfl, rfl, rfl, ?_, ?_, rfl⟩
    · intro p hp
      simp only [Msg.blocks, Option.toList_none, List.map_nil, List.nil_append, List.mem_cons,
        List.not_mem_nil, or_false] at hp
      rcases hp with rfl | rfl <;> simp [issue]
    · simp [Msg.blocks]
  · cases h

theorem publishArray_eff {s s' : State} {t : Tid} {buffer : Bytes} {a length : Nat}
    (h : publishArray s t buffer a length = some s') :
    ∃ blocks msg, s' = issue s t blocks msg ∧ msg.call = s.calls ∧ msg.direct = false ∧
      Holds s'.memory msg := by
  unfold publishArray at h
  split at h
  · split at h
    · next array _ hc =>
      cases h
      refine ⟨_, _, rfl, rfl, rfl, ?_, ?_, ?_⟩
      · intro p hp
        simp only [Msg.blocks, Option.toList_some, List.map_cons, List.map_nil, List.mem_cons,
          List.cons_append, List.nil_append, List.not_mem_nil, or_false] at hp
        rcases hp with rfl | rfl | rfl <;> simp [issue]
      · simp [Msg.blocks]
      · simp [payloadBytes, issue]
    · cases h
  · cases h

theorem publishDirect_eff {s s' : State} {t : Tid} {buffer : Bytes} {b : Addr}
    {length : Nat} (h : publishDirect s t buffer b length = some s') :
    ∃ msg cell, s' = issue s t [[], buffer] msg ∧ msg.call = s.calls ∧ msg.direct = true ∧
      msg.payload = some (b, length) ∧ s.memory[b]? = some cell ∧ cell.owner = .java := by
  unfold publishDirect at h
  split at h
  · next cell hb =>
    split at h
    · next hc =>
      cases h
      exact ⟨_, cell, rfl, rfl, rfl, rfl, hb, hc.2.1⟩
    · cases h
  · cases h

theorem path_eff {s s' : State} {a : SendPath.Act Msg} (h : path s a = some s') :
    ∃ send, SendPath.step s.send a = some send ∧
      ((∃ msg, s.send.outputQueue = msg :: send.outputQueue ∧
        send.wire = s.send.wire ++ [msg] ∧ s' = { release s msg with send := send }) ∨
      (send.outputQueue = s.send.outputQueue ∧ send.wire = s.send.wire ∧
        s' = { s with send := send })) := by
  cases a with
  | enqueue t msg => cases h
  | _ =>
    obtain ⟨send, hs, he⟩ := Option.map_eq_some_iff.mp h
    refine ⟨send, hs, ?_⟩
    obtain ⟨msg, ha, hq, hw, _⟩ | ⟨ha, hq, hw⟩ := SendPath.queue_step hs
    · rw [ha] at he
      exact Or.inl ⟨msg, hq, hw, he.symm⟩
    · rw [ha] at he
      exact Or.inr ⟨hq.trans (List.append_nil _), hw, he.symm⟩

theorem enqueue_eff {s s' : State} {t : Tid} {msg : Msg}
    (h : enqueue s t msg = some s') :
    (t, msg) ∈ s.pending ∧ ∃ send, SendPath.enqueue s.send t msg = some send ∧
      s' = { s with send := send, pending := s.pending.erase (t, msg) } := by
  unfold enqueue at h
  split at h
  · next hp =>
    obtain ⟨send, hsend, rfl⟩ := Option.map_eq_some_iff.mp h
    exact ⟨hp, send, hsend, rfl⟩
  · cases h

/-- the payload of a message that points into a block of Java -/
def InJava (m : List Cell) (msg : Msg) : Prop :=
  ∃ p n c, msg.payload = some (p, n) ∧ m[p]? = some c ∧ c.owner = .java

/-- **What a step can do**, said once for all that follows. -/
inductive Effect (s s' : State) : Act → Prop
  | java {a : Act} (silent : a.onPath = []) (memory : List Cell) (arrays : List Bytes)
      (evolves : Evolves s.memory memory) (keeps : ∀ call, Keeps call s.memory memory)
      (eq : s' = { s with memory := memory, arrays := arrays }) : Effect s s' a
  | issue {a : Act} (silent : a.onPath = []) (t : Tid) (blocks : List Bytes) (msg : Msg)
      (call : msg.call = s.calls) (own : msg.direct = false → Holds s'.memory msg)
      (java : msg.direct = true → InJava s.memory msg) (eq : s' = issue s t blocks msg) :
      Effect s s' a
  | enqueue (t : Tid) (msg : Msg) (mem : (t, msg) ∈ s.pending) (send : SendPath.State Msg)
      (step : SendPath.step s.send (.enqueue t msg) = some send)
      (eq : s' = { s with send := send, pending := s.pending.erase (t, msg) }) :
      Effect s s' (.enqueue t msg)
  | sent (a : SendPath.Act Msg) (msg : Msg) (send : SendPath.State Msg)
      (step : SendPath.step s.send a = some send)
      (queue : s.send.outputQueue = msg :: send.outputQueue)
      (wire : send.wire = s.send.wire ++ [msg]) (eq : s' = { release s msg with send := send }) :
      Effect s s' (.path a)
  | path (a : SendPath.Act Msg) (send : SendPath.State Msg)
      (step : SendPath.step s.send a = some send)
      (queue : send.outputQueue = s.send.outputQueue) (wire : send.wire = s.send.wire)
      (eq : s' = { s with send := send }) : Effect s s' (.path a)

theorem step_effect {s s' : State} {a : Act} (h : step s a = some s') : Effect s s' a := by
  cases a with
  | newArray bytes =>
    exact .java rfl s.memory _ (Evolves.refl _) (fun _ _ _ hp _ => hp) (Option.some.inj h).symm
  | writeArray a bytes =>
    exact .java rfl s.memory _ (Evolves.refl _) (fun _ _ _ hp _ => hp) (writeArray_eff h)
  | allocateDirect capacity =>
    exact .java rfl _ s.arrays (evolves_append _ _) (fun call => keeps_append call _ _)
      (Option.some.inj h).symm
  | writeBuffer b bytes =>
    obtain ⟨cell, hb, hj, e⟩ := writeBuffer_eff h
    exact .java rfl (s.memory.modify b fun c => { c with bytes := bytes }) s.arrays
      (evolves_modify _ _ _ fun c => ⟨rfl, id⟩) (fun call => keeps_modify call hb hj _) e
  | request t buffer =>
    obtain ⟨msg, e, hcall, hd, hh⟩ := request_eff h
    exact .issue rfl t _ msg hcall (fun _ => hh) (fun hd' => absurd (hd.symm.trans hd') nofun) e
  | publishArray t buffer a length =>
    obtain ⟨blocks, msg, e, hcall, hd, hh⟩ := publishArray_eff h
    exact .issue rfl t _ msg hcall (fun _ => hh) (fun hd' => absurd (hd.symm.trans hd') nofun) e
  | publishDirect t buffer b length =>
    obtain ⟨msg, cell, e, hcall, hd, hpay, hb, hj⟩ := publishDirect_eff h
    exact .issue rfl t _ msg hcall (fun hd' => absurd (hd'.symm.trans hd) nofun)
      (fun _ => ⟨b, length, cell, hpay, hb, hj⟩) e
  | enqueue t msg =>
    obtain ⟨hp, send, hsend, e⟩ := enqueue_eff h
    exact .enqueue t msg hp send hsend e
  | path a =>
    obtain ⟨send, hs, ⟨msg, hq, hw, e⟩ | ⟨hq, hw, e⟩⟩ := path_eff h
    · exact .sent a msg send hs hq hw e
    · exact .path a send hs hq hw e

/-! ## the invariant -/

/-- the messages in the queue, and those about to enter it -/
def inFlight (s : State) : List Msg := s.send.outputQueue ++ s.pending.map Prod.snd

structure Inv (s : State) : Prop where
  fresh : ∀ msg ∈ inFlight s, msg.call < s.calls
  distinct : ((inFlight s).map Msg.call).Nodup
  holds : ∀ msg ∈ inFlight s, msg.direct = false → Holds s.memory msg
  queued : ∀ msg ∈ s.send.outputQueue, msg.direct = false
  freed : ∀ p ∈ s.freed, ∃ c, s.memory[p]? = some c ∧ c.owner ≠ .java ∧ c.live = false
  once : s.freed.Nodup
  released : s.freed = s.sent.flatMap fun r => r.1.blocks
  wire : s.sent.map Prod.fst = s.send.wire
  carried : ∀ r ∈ s.sent, r.2 = r.1.snapshot

theorem Inv.init : Inv init where
  fresh := nofun
  distinct := List.nodup_nil
  holds := nofun
  queued := nofun
  freed := nofun
  once := List.nodup_nil
  released := rfl
  wire := rfl
  carried := nofun

theorem freed_evolves {s : State} (hi : Inv s) {m' : List Cell} (he : Evolves s.memory m') :
    ∀ p ∈ s.freed, ∃ c, m'[p]? = some c ∧ c.owner ≠ .java ∧ c.live = false := by
  intro p hp
  obtain ⟨c, hc, ho, hl⟩ := hi.freed p hp
  obtain ⟨c', hc', ho', hl'⟩ := he p c hc
  exact ⟨c', hc', ho' ▸ ho, hl' hl⟩

/-- a step that changes only the Java side -/
theorem Inv.java {s : State} (hi : Inv s) {m' : List Cell} (arrays' : List Bytes)
    (he : Evolves s.memory m') (hk : ∀ call, Keeps call s.memory m') :
    Inv { s with memory := m', arrays := arrays' } where
  fresh := hi.fresh
  distinct := hi.distinct
  holds msg hm hd := (hi.holds msg hm hd).keep (hk _)
  queued := hi.queued
  freed := freed_evolves hi he
  once := hi.once
  released := hi.released
  wire := hi.wire
  carried := hi.carried

/-- a call that begins -/
theorem Inv.issue {s : State} (hi : Inv s) (t : Tid) (blocks : List Bytes) {msg : Msg}
    (hcall : msg.call = s.calls)
    (hh : msg.direct = false → Holds (s.memory ++ blocks.map fun bytes =>
      ⟨.native s.calls, bytes, true⟩) msg) : Inv (issue s t blocks msg) := by
  have hperm : (inFlight (PublishMemory.issue s t blocks msg)).Perm (msg :: inFlight s) :=
    List.perm_middle
  refine ⟨?_, ?_, ?_, hi.queued, freed_evolves hi (evolves_append _ _), hi.once,
    hi.released, hi.wire, hi.carried⟩
  · intro m hm
    obtain rfl | hm := List.mem_cons.mp (hperm.mem_iff.mp hm)
    · show m.call < s.calls + 1
      omega
    · exact Nat.lt_succ_of_lt (hi.fresh m hm)
  · rw [(hperm.map Msg.call).nodup_iff]
    refine List.nodup_cons.mpr ⟨fun hm => ?_, hi.distinct⟩
    obtain ⟨m, hm, e⟩ := List.mem_map.mp hm
    have := hi.fresh m hm
    omega
  · intro m hm hd
    obtain rfl | hm := List.mem_cons.mp (hperm.mem_iff.mp hm)
    · exact hh hd
    · exact (hi.holds m hm hd).keep (keeps_append _ _ _)

/-- a message that enters the queue -/
theorem Inv.enqueue {s : State} {t : Tid} {msg : Msg} {send : SendPath.State Msg} (hi : Inv s)
    (hd : msg.direct = false) (hp : (t, msg) ∈ s.pending)
    (hq : send.outputQueue = s.send.outputQueue ++ [msg]) (hwire : send.wire = s.send.wire) :
    Inv { s with send := send, pending := s.pending.erase (t, msg) } := by
  have hperm : (inFlight { s with send := send, pending := s.pending.erase (t, msg) }).Perm
      (inFlight s) := by
    unfold inFlight
    dsimp only
    rw [hq, List.append_assoc]
    exact ((List.perm_cons_erase hp).map Prod.snd).symm.append_left _
  refine ⟨fun m hm => hi.fresh m (hperm.mem_iff.mp hm),
    (hperm.map Msg.call).nodup_iff.mpr hi.distinct,
    fun m hm => hi.holds m (hperm.mem_iff.mp hm), fun m hm => ?_, hi.freed, hi.once,
    hi.released, hi.wire.trans hwire.symm, hi.carried⟩
  have hm' : m ∈ s.send.outputQueue ++ [msg] := hq ▸ hm
  obtain hm' | hm' := List.mem_append.mp hm'
  · exact hi.queued m hm'
  · rw [List.mem_singleton.mp hm']
    exact hd

/-- a message that is accepted and freed -/
theorem Inv.release {s : State} {msg : Msg} {send : SendPath.State Msg} (hi : Inv s)
    (hq : s.send.outputQueue = msg :: send.outputQueue) (hwire : send.wire = s.send.wire ++ [msg]) :
    Inv { release s msg with send := send } := by
  have hfl : inFlight s = msg :: (send.outputQueue ++ s.pending.map Prod.snd) := by
    unfold inFlight
    rw [hq]
    rfl
  have hdist := hi.distinct
  rw [hfl, List.map_cons, List.nodup_cons] at hdist
  have hmem : ∀ m ∈ send.outputQueue ++ s.pending.map Prod.snd, m ∈ inFlight s := fun m hm =>
    hfl ▸ List.mem_cons_of_mem _ hm
  have hh : Holds s.memory msg := hi.holds msg (hfl ▸ List.mem_cons_self)
    (hi.queued msg (hq ▸ List.mem_cons_self))
  have hblocks : ∀ p ∈ msg.blocks, ∃ c, s.memory[p]? = some c ∧ c.owner = .native msg.call := by
    intro p hp
    obtain ⟨c, hc, ho, _⟩ := hh.blocks p hp
    exact ⟨c, hc, ho⟩
  refine ⟨fun m hm => hi.fresh m (hmem m hm), hdist.2, fun m hm hd => ?_, fun m hm => ?_,
    fun p hp => ?_, ?_, ?_, ?_, fun r hr => ?_⟩
  · refine (hi.holds m (hmem m hm) hd).keep (keeps_freeAll hblocks fun e => hdist.1 ?_)
    exact e ▸ List.mem_map_of_mem hm
  · exact hi.queued m (hq ▸ List.mem_cons_of_mem _ hm)
  · obtain hp | hp := List.mem_append.mp hp
    · exact freed_evolves hi (evolves_freeAll _ _) p hp
    · obtain ⟨c, hc, ho⟩ := hblocks p hp
      refine ⟨{ c with live := false }, ?_, by rw [ho]; exact nofun, rfl⟩
      show (msg.blocks.foldl free s.memory)[p]? = _
      rw [getElem?_freeAll, hc, Option.map_some, if_pos hp]
  · refine List.Nodup.append hi.once hh.nodup fun p hf hp => ?_
    obtain ⟨c, hc, _, hl⟩ := hi.freed p hf
    obtain ⟨c', hc', _, hl'⟩ := hh.blocks p hp
    rw [hc] at hc'
    cases hc'
    rw [hl] at hl'
    cases hl'
  · show s.freed ++ msg.blocks =
      (s.sent ++ [(msg, payloadBytes s.memory msg)]).flatMap fun r => r.1.blocks
    rw [List.flatMap_append, hi.released, List.flatMap_singleton]
  · show (s.sent ++ [(msg, _)]).map Prod.fst = send.wire
    rw [List.map_append, hi.wire, hwire]
    rfl
  · obtain hr | hr := List.mem_append.mp hr
    · exact hi.carried r hr
    · rw [List.mem_singleton.mp hr]
      exact hh.payload

/-- a step of the selector or of a waiting producer that sends nothing -/
theorem Inv.path {s : State} {send : SendPath.State Msg} (hi : Inv s)
    (hq : send.outputQueue = s.send.outputQueue) (hw : send.wire = s.send.wire) :
    Inv { s with send := send } := by
  have hfl : inFlight { s with send := send } = inFlight s :=
    congrArg (· ++ s.pending.map Prod.snd) hq
  exact ⟨hfl ▸ hi.fresh, hfl ▸ hi.distinct, hfl ▸ hi.holds, fun m hm => hi.queued m (hq ▸ hm),
    hi.freed, hi.once, hi.released, hi.wire.trans hw.symm, hi.carried⟩

/-! ## runs -/

/-- a message that points into a Java buffer enters the queue -/
def EntersDirect : Act → Prop
  | .enqueue _ msg => msg.direct = true
  | _ => False

instance : ∀ a, Decidable (EntersDirect a)
  | .enqueue _ msg => inferInstanceAs (Decidable (msg.direct = true))
  | .newArray _ | .writeArray _ _ | .allocateDirect _ | .writeBuffer _ _ | .request _ _
  | .publishArray _ _ _ _ | .publishDirect _ _ _ _ | .path _ => isFalse id

theorem inv_step {s s' : State} {a : Act} (hn : ¬ EntersDirect a) (hi : Inv s)
    (h : step s a = some s') : Inv s' := by
  cases step_effect h with
  | java _ memory arrays he hk e => exact e ▸ hi.java arrays he hk
  | issue _ t blocks msg hcall hown _ e =>
    subst e
    exact hi.issue t blocks hcall hown
  | enqueue t msg hp send hs e =>
    obtain ⟨hq, _, _, _, _, hwire⟩ := SendPath.enqueue_eff hs
    exact e ▸ hi.enqueue (Bool.eq_false_iff.mpr hn) hp hq hwire
  | sent a msg send _ hq hw e => exact e ▸ hi.release hq hw
  | path a send _ hq hw e => exact e ▸ hi.path hq hw

/-- the payload of a buffer message that is about to enter the queue is a Java block -/
def JavaOwned (s : State) : Prop :=
  ∀ e ∈ s.pending, e.2.direct = true → InJava s.memory e.2

theorem InJava.evolves {m m' : List Cell} {msg : Msg} (h : InJava m msg) (he : Evolves m m') :
    InJava m' msg := by
  obtain ⟨p, n, c, hpay, hc, ho⟩ := h
  obtain ⟨c', hc', ho', _⟩ := he p c hc
  exact ⟨p, n, c', hpay, hc', ho'.trans ho⟩

theorem JavaOwned.evolves {s s' : State} (hs : JavaOwned s) (he : Evolves s.memory s'.memory)
    (hp : ∀ e ∈ s'.pending, e ∈ s.pending) : JavaOwned s' := fun e hm hd =>
  (hs e (hp e hm) hd).evolves he

theorem javaOwned_step {s s' : State} {a : Act} (hs : JavaOwned s) (h : step s a = some s') :
    JavaOwned s' := by
  cases step_effect h with
  | java _ memory arrays he _ e =>
    subst e
    exact hs.evolves he fun _ hp => hp
  | issue _ t blocks msg _ _ hj e =>
    subst e
    have he : Evolves s.memory (issue s t blocks msg).memory := evolves_append _ _
    intro e hm hd
    obtain rfl | hm := List.mem_cons.mp hm
    · exact (hj hd).evolves he
    · exact (hs e hm hd).evolves he
  | enqueue t msg _ send _ e =>
    subst e
    exact hs.evolves (Evolves.refl _) fun _ hp => List.mem_of_mem_erase hp
  | sent a msg send _ _ _ e =>
    subst e
    exact hs.evolves (evolves_freeAll _ _) fun _ hp => hp
  | path a send _ _ _ e =>
    subst e
    exact hs

theorem step_onPath {s s' : State} {a : Act} (h : step s a = some s') :
    run SendPath.step s.send a.onPath = some s'.send := by
  cases step_effect h with
  | java hsilent _ _ _ _ e =>
    rw [hsilent, e]
    rfl
  | issue hsilent t blocks msg _ _ _ e =>
    rw [hsilent, e]
    rfl
  | enqueue t msg _ send hs e =>
    rw [e]
    exact run_snoc SendPath.step (run_nil _ _) hs
  | sent a msg send hs _ _ e =>
    rw [e]
    exact run_snoc SendPath.step (run_nil _ _) hs
  | path a send hs _ _ e =>
    rw [e]
    exact run_snoc SendPath.step (run_nil _ _) hs

/-- every run is a run of the send path -/
theorem run_onPath {as : List Act} {s : State} (h : run step init as = some s) :
    run SendPath.step SendPath.init (as.flatMap Act.onPath) = some s.send :=
  run_proj State.send Act.onPath (fun _ _ _ => step_onPath) h

/-- published data is a snapshot that the native code owns; what has been freed, once each, are the
blocks of the messages sent -/
structure Snapshot (s : State) : Prop where
  distinct : s.send.outputQueue.Pairwise fun msg msg' => ∀ p n p' n',
    msg.payload = some (p, n) → msg'.payload = some (p', n') → p ≠ p'
  owned : ∀ msg ∈ s.send.outputQueue, ∀ p n, msg.payload = some (p, n) →
    ∃ c, s.memory[p]? = some c ∧ c.owner = .native msg.call ∧ c.live = true
  wire : s.sent.map Prod.fst = s.send.wire
  carried : ∀ r ∈ s.sent, r.2 = r.1.snapshot
  once : s.freed.Nodup
  released : s.freed = s.sent.flatMap fun r => r.1.blocks
  allocated : ∀ p ∈ s.freed, ∃ c, s.memory[p]? = some c ∧ c.owner ≠ .java

theorem Inv.snapshot {s : State} (hi : Inv s) : Snapshot s where
  distinct := by
    have hq : (s.send.outputQueue.map Msg.call).Nodup :=
      hi.distinct.sublist ((List.sublist_append_left _ _).map Msg.call)
    refine (List.pairwise_map.mp hq).imp_of_mem fun {m m'} hm hm' hne p n p' n' hp hp' e => ?_
    obtain ⟨c, hc, ho, _⟩ := (hi.holds m (List.mem_append_left _ hm) (hi.queued m hm)).blocks p
      (Msg.payload_mem_blocks hp)
    obtain ⟨c', hc', ho', _⟩ := (hi.holds m' (List.mem_append_left _ hm')
      (hi.queued m' hm')).blocks p' (Msg.payload_mem_blocks hp')
    rw [← e, hc] at hc'
    cases hc'
    rw [ho] at ho'
    exact hne (Owner.native.inj ho')
  owned m hm p n hp := (hi.holds m (List.mem_append_left _ hm) (hi.queued m hm)).blocks p
    (Msg.payload_mem_blocks hp)
  wire := hi.wire
  carried := hi.carried
  once := hi.once
  released := hi.released
  allocated p hp := by
    obtain ⟨c, hc, ho, _⟩ := hi.freed p hp
    exact ⟨c, hc, ho⟩

theorem entersDirect_not_snapshot {s s' : State} {a : Act} (ha : EntersDirect a)
    (hs : JavaOwned s) (h : step s a = some s') : ¬ Snapshot s' := by
  intro hsnap
  cases a with
  | enqueue t msg =>
    obtain ⟨hp, send, hsend, rfl⟩ := enqueue_eff h
    obtain ⟨p, n, c, hpay, hc, ho⟩ := hs (t, msg) hp ha
    have hmem : msg ∈ send.outputQueue := by
      rw [(SendPath.enqueue_eff hsend).1]
      simp
    obtain ⟨c', hc', ho', _⟩ := hsnap.owned msg hmem p n hpay
    have e : c = c' := Option.some.inj (hc.symm.trans hc')
    rw [← e, ho] at ho'
    cases ho'
  | _ => exact ha

/-- **Published data is a snapshot** in every state of a run exactly when no message that points
into a Java buffer enters the queue, so exactly when no `publishData` of a `ByteBuffer` reaches
its critical section. -/
theorem snapshot_iff (as : List Act) (s : State) (h : run step init as = some s) :
    (∀ m, Visits step init as m → Snapshot m) ↔ ∀ a ∈ as, ¬ EntersDirect a := by
  constructor
  · intro hall a ha hd
    obtain ⟨bs, m, m', hpre, hm, hm'⟩ := run_mem step h ha
    have hj : JavaOwned m := run_inv (fun _ _ _ => javaOwned_step)
      (fun _ he => absurd he List.not_mem_nil) hm
    exact entersDirect_not_snapshot hd hj hm' (hall m' ⟨_, hpre, run_snoc step hm hm'⟩)
  · rintro hno m ⟨bs, hpre, hm⟩
    have hC : Along step (fun _ a => ¬ EntersDirect a) init bs :=
      along_of_forall init fun a ha => hno a (hpre.subset ha)
    exact (run_inv_along (fun _ _ _ => inv_step) hC Inv.init hm).snapshot

/-- an array is published, overwritten before the selector runs, and published again -/
def twoArrays : List Act :=
  [.newArray [1, 2, 3], .publishArray 1 [9] 0 2,
    .enqueue 1 ⟨0, .array 0, 1, 2, some (0, 2), [1, 2]⟩, .writeArray 0 [4, 5, 6],
    .publishArray 1 [9] 0 3, .enqueue 1 ⟨1, .array 0, 4, 5, some (3, 3), [4, 5, 6]⟩,
    .path (.select {.pipe} ∅), .path .readPipe, .path .receive, .path (.send 12 none),
    .path .rearm, .path (.select ∅ {.sock}), .path .readPipe, .path .receive,
    .path (.send 13 none)]

theorem snapshot_iff_twoArrays :
    ((run step init twoArrays).map fun s => s.sent.map Prod.snd) = some [[1, 2], [4, 5, 6]] ∧
    ∀ m, Visits step init twoArrays m → Snapshot m := by
  have hrun : ∃ s, run step init twoArrays = some s := Option.isSome_iff_exists.mp (by decide)
  obtain ⟨s, hs⟩ := hrun
  exact ⟨by decide, (snapshot_iff twoArrays s hs).mpr (by decide)⟩

/-- A direct buffer is published and overwritten: the socket gets the new bytes, and the selector
frees a block of Java. -/
theorem direct_not_snapshot :
    ¬ (∀ (as : List Act) (s : State), run step init as = some s →
      ∀ r ∈ s.sent, r.2 = r.1.snapshot) ∧
    ¬ (∀ (as : List Act) (s : State), run step init as = some s →
      ∀ p ∈ s.freed, (s.memory[p]?).map Cell.owner ≠ some .java) := by
  have hrun : ∃ s, run step init [.allocateDirect 2, .publishDirect 1 [9] 0 2,
      .enqueue 1 ⟨0, .buffer 0, 1, 2, some (0, 2), [0, 0]⟩, .writeBuffer 0 [7, 7],
      .path (.select {.pipe} ∅), .path .readPipe, .path .receive, .path (.send 12 none)] =
      some s ∧ (∃ r ∈ s.sent, r.2 ≠ r.1.snapshot) ∧
        ∃ p ∈ s.freed, (s.memory[p]?).map Cell.owner = some .java :=
    ⟨_, rfl, by decide, by decide⟩
  obtain ⟨s, hs, ⟨r, hr, hne⟩, p, hp, hj⟩ := hrun
  exact ⟨fun h => hne (h _ s hs r hr), fun h => h _ s hs p hp hj⟩

end PublishMemory
end BA
