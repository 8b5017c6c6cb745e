import BlackadderJNI.Native.Snapshot

/-!
# What is allocated is in flight

The blocks of native memory on the send path, in every run, with direct buffers or without.

* `native`             the block at an address, where it is one of the native code;
* `Msg.own`, `Msg.java`  the blocks of a message that its call allocated, and the block of Java
                       that a direct message points into;
* `Frozen`, `step_frozen`   the bytes of a native block never change;
* `step_issues`        what a call allocates is what its message owns;
* `Balance`            the invariant; `balance_step`, one case for each effect;
* `allocated_iff_inFlight`   a native block is allocated exactly while its message is in flight.
-/

namespace BA
namespace PublishMemory
open Run
open SendPath (Tid)

/-! ## the native blocks -/

/-- the block at `p`, if it is not one of Java -/
def native (m : List Cell) (p : Addr) : Option Cell := (m[p]?).filter fun c => c.owner ≠ .java

theorem native_some {m : List Cell} {p : Addr} {c : Cell} :
    native m p = some c ↔ m[p]? = some c ∧ c.owner ≠ .java := by
  simp [native, Option.filter_eq_some_iff]

theorem native_of_owner {m : List Cell} {p : Addr} {c : Cell} {k : Nat} (h : m[p]? = some c)
    (ho : c.owner = .native k) : native m p = some c :=
  native_some.mpr ⟨h, by rw [ho]; exact nofun⟩

/-- of the blocks that the call allocated, only a direct message's second segment is none -/
def Msg.own (msg : Msg) : List Addr :=
  if msg.direct then [msg.header, msg.iov] else msg.blocks

/-- the block of Java that is freed with the message -/
def Msg.java (msg : Msg) : List Addr :=
  if msg.direct then msg.payload.toList.map Prod.fst else []

theorem Msg.count_blocks (msg : Msg) (p : Addr) :
    msg.blocks.count p = msg.own.count p + msg.java.count p := by
  unfold own java
  cases msg.direct with
  | false => rfl
  | true =>
    unfold blocks
    simp only [List.count_cons, List.count_append, List.count_nil, if_true]
    omega

theorem native_freeAll (m : List Cell) (ps : List Addr) (p : Addr) :
    native (ps.foldl free m) p =
      (native m p).map fun c => if p ∈ ps then { c with live := false } else c := by
  unfold native
  rw [getElem?_freeAll]
  cases m[p]? with
  | none => rfl
  | some c =>
    by_cases hj : c.owner = .java <;> by_cases hp : p ∈ ps <;> simp [Option.filter, hj, hp]

/-! ## what a step does to them -/

/-- the bytes and the owners of the native blocks stay -/
def Frozen (m m' : List Cell) : Prop :=
  ∀ (p : Addr) (c : Cell), native m p = some c →
    ∃ c', native m' p = some c' ∧ c'.owner = c.owner ∧ c'.bytes = c.bytes

theorem Frozen.of_eq {m m' : List Cell} (h : ∀ p, native m' p = native m p) : Frozen m m' :=
  fun p c hc => ⟨c, (h p).trans hc, rfl, rfl⟩

theorem frozen_append (m new : List Cell) : Frozen m (m ++ new) := by
  intro p c hc
  obtain ⟨hp, hj⟩ := native_some.mp hc
  have hlt : p < m.length := (List.getElem?_eq_some_iff.mp hp).1
  exact ⟨c, native_some.mpr ⟨(List.getElem?_append_left hlt).trans hp, hj⟩, rfl, rfl⟩

theorem frozen_freeAll (m : List Cell) (ps : List Addr) : Frozen m (ps.foldl free m) := by
  intro p c hc
  rw [native_freeAll, hc, Option.map_some]
  refine ⟨_, rfl, ?_, ?_⟩ <;> split_ifs <;> rfl

/-- a step of the Java side: no native block appears, vanishes or changes -/
def Act.isJava : Act → Bool
  | .newArray _ | .writeArray _ _ | .allocateDirect _ | .writeBuffer _ _ => true
  | _ => false

/-- a call that begins -/
def Act.isCall : Act → Bool
  | .request _ _ | .publishArray _ _ _ _ | .publishDirect _ _ _ _ => true
  | _ => false

theorem native_append_java (m : List Cell) (bytes : Bytes) (p : Addr) :
    native (m ++ [⟨.java, bytes, true⟩]) p = native m p := by
  unfold native
  by_cases hp : p < m.length
  · rw [List.getElem?_append_left hp]
  · have hle : m.length ≤ p := not_lt.mp hp
    rw [List.getElem?_append_right hle, List.getElem?_eq_none hle]
    cases p - m.length <;> rfl

theorem native_modify_java {m : List Cell} {b : Addr} {cell : Cell} (hb : m[b]? = some cell)
    (hj : cell.owner = .java) (bytes : Bytes) (p : Addr) :
    native (m.modify b fun c => { c with bytes := bytes }) p = native m p := by
  unfold native
  rw [List.getElem?_modify]
  by_cases hp : b = p
  · subst hp
    simp [hb, Option.filter, hj]
  · simp [hp]

/-- only the blocks and arrays of Java change -/
structure OnJava (s s' : State) : Prop where
  native : ∀ p, native s'.memory p = PublishMemory.native s.memory p
  evolves : Evolves s.memory s'.memory
  send : s'.send = s.send
  pending : s'.pending = s.pending
  calls : s'.calls = s.calls
  sent : s'.sent = s.sent
  freed : s'.freed = s.freed

theorem step_onJava {s s' : State} {a : Act} (ha : a.isJava = true) (h : step s a = some s') :
    OnJava s s' := by
  cases a with
  | newArray bytes =>
    cases h
    exact ⟨fun _ => rfl, Evolves.refl _, rfl, rfl, rfl, rfl, rfl⟩
  | writeArray a bytes =>
    rw [writeArray_eff h]
    exact ⟨fun _ => rfl, Evolves.refl _, rfl, rfl, rfl, rfl, rfl⟩
  | allocateDirect capacity =>
    cases h
    exact ⟨native_append_java _ _, evolves_append _ _, rfl, rfl, rfl, rfl, rfl⟩
  | writeBuffer b bytes =>
    obtain ⟨cell, hb, hj, rfl⟩ := writeBuffer_eff h
    exact ⟨native_modify_java hb hj bytes, evolves_modify _ _ _ fun c => ⟨rfl, id⟩, rfl, rfl, rfl,
      rfl, rfl⟩
  | request _ _ | publishArray _ _ _ _ | publishDirect _ _ _ _ | enqueue _ _ | path _ => cases ha

/-- **What a call allocates is what its message owns.** -/
theorem step_issues {s s' : State} {a : Act} (ha : a.isCall = true) (h : step s a = some s') :
    ∃ t blocks msg, s' = issue s t blocks msg ∧ msg.call = s.calls ∧
      msg.own.Perm (List.range' s.memory.length blocks.length) ∧
      (msg.direct = true → InJava s.memory msg) := by
  cases a with
  | request t buffer =>
    dsimp only [step] at h
    unfold request at h
    split at h
    · cases h
      refine ⟨t, _, _, rfl, rfl, ?_, nofun⟩
      exact List.Perm.swap _ _ _
    · cases h
  | publishArray t buffer a length =>
    dsimp only [step] at h
    unfold publishArray at h
    split at h
    · split at h
      · cases h
        refine ⟨t, _, _, rfl, rfl, ?_, nofun⟩
        exact @List.perm_append_comm _ [s.memory.length + 2] _
      · cases h
    · cases h
  | publishDirect t buffer b length =>
    dsimp only [step] at h
    unfold publishDirect at h
    split at h
    · next cell hb =>
      split at h
      · next hc =>
        cases h
        refine ⟨t, _, _, rfl, rfl, ?_, fun _ => ⟨b, length, cell, rfl, hb, hc.2.1⟩⟩
        exact List.Perm.swap _ _ _
      · cases h
    · cases h
  | newArray _ | writeArray _ _ | allocateDirect _ | writeBuffer _ _ | enqueue _ _ | path _ =>
    cases ha

/-- the bytes of a native block stay what its call wrote, along every step -/
theorem step_frozen {s s' : State} {a : Act} (h : step s a = some s') :
    Frozen s.memory s'.memory := by
  by_cases hjava : a.isJava = true
  · exact .of_eq (step_onJava hjava h).native
  by_cases hcall : a.isCall = true
  · obtain ⟨t, blocks, msg, rfl, _⟩ := step_issues hcall h
    exact frozen_append _ _
  cases step_effect h with
  | java hs | issue hs => cases a <;> simp_all [Act.isJava, Act.isCall, Act.onPath]
  | enqueue t msg _ send _ e =>
    rw [e]
    exact .of_eq fun _ => rfl
  | sent a msg send _ _ _ e =>
    rw [e]
    exact frozen_freeAll _ _
  | path a send _ _ _ e =>
    rw [e]
    exact .of_eq fun _ => rfl

/-! ## the invariant -/

structure Balance (s : State) : Prop where
  fresh : ∀ msg ∈ inFlight s, msg.call < s.calls
  distinct : ((inFlight s).map Msg.call).Nodup
  /-- the blocks of a call are allocated while its message is in flight -/
  live : ∀ p c, native s.memory p = some c → ∃ k < s.calls, c.owner = .native k ∧
    (c.live = true ↔ k ∈ (inFlight s).map Msg.call)
  own : ∀ msg ∈ inFlight s, msg.own.Nodup ∧ ∀ p, p ∈ msg.own ↔
    ∃ c, native s.memory p = some c ∧ c.owner = .native msg.call
  java : ∀ msg ∈ inFlight s, msg.direct = true → InJava s.memory msg
  unused : ∀ p, s.memory[p]? = none →
    s.freed.count p = 0 ∧ (s.sent.flatMap fun r => r.1.java).count p = 0
  freed : ∀ p c, native s.memory p = some c → s.freed.count p = if c.live then 0 else 1
  freedJava : ∀ p c, s.memory[p]? = some c → c.owner = .java →
    s.freed.count p = (s.sent.flatMap fun r => r.1.java).count p

theorem Balance.init : Balance init where
  fresh := nofun
  distinct := List.nodup_nil
  live _ _ h := nomatch h
  own := nofun
  java := nofun
  unused _ _ := ⟨rfl, rfl⟩
  freed _ _ h := nomatch h
  freedJava _ _ h := nomatch h

theorem evolves_none {m m' : List Cell} (h : Evolves m m') {p : Addr} (hp : m'[p]? = none) :
    m[p]? = none := by
  cases hm : m[p]? with
  | none => rfl
  | some c =>
    obtain ⟨c', hc', _⟩ := h p c hm
    rw [hp] at hc'
    cases hc'

theorem Balance.onJava {s s' : State} (hb : Balance s) (h : OnJava s s') : Balance s' := by
  have hfl : inFlight s' = inFlight s := by
    unfold inFlight
    rw [h.send, h.pending]
  refine ⟨?_, ?_, fun p c hc => ?_, ?_, ?_, fun p hp => ?_, fun p c hc => ?_, fun p c hc ho => ?_⟩
  · rw [hfl, h.calls]
    exact hb.fresh
  · rw [hfl]
    exact hb.distinct
  · rw [hfl, h.calls]
    exact hb.live p c ((h.native p).symm.trans hc)
  · simp only [hfl, h.native]
    exact hb.own
  · intro msg hm hd
    exact (hb.java msg (hfl ▸ hm) hd).evolves h.evolves
  · rw [h.freed, h.sent]
    exact hb.unused p (evolves_none h.evolves hp)
  · rw [h.freed]
    exact hb.freed p c ((h.native p).symm.trans hc)
  · rw [h.freed, h.sent]
    cases hm : s.memory[p]? with
    | none =>
      -- a new block of Java: nothing points into it yet
      rw [(hb.unused p hm).1, (hb.unused p hm).2]
    | some c' =>
      obtain ⟨c'', hc'', ho', _⟩ := h.evolves p c' hm
      rw [hc] at hc''
      cases hc''
      exact hb.freedJava p c' hm (ho' ▸ ho)

/-- a new block is the call's, an old one is as before -/
theorem native_issue {s : State} {t : Tid} {blocks : List Bytes} {msg : Msg} {p : Addr} {c : Cell}
    (h : native (issue s t blocks msg).memory p = some c) :
    native s.memory p = some c ∨ s.memory[p]? = none ∧ c.owner = .native s.calls ∧ c.live = true ∧
      p ∈ List.range' s.memory.length blocks.length := by
  obtain ⟨hc, hj⟩ := native_some.mp h
  by_cases hp : p < s.memory.length
  · exact Or.inl (native_some.mpr ⟨(List.getElem?_append_left hp).symm.trans hc, hj⟩)
  · have hle : s.memory.length ≤ p := not_lt.mp hp
    have hnew := (List.getElem?_append_right hle).symm.trans hc
    rw [List.getElem?_map] at hnew
    obtain ⟨bytes, hb, rfl⟩ := Option.map_eq_some_iff.mp hnew
    have hlt := (Nat.sub_lt_iff_lt_add' hle).mp (List.getElem?_eq_some_iff.mp hb).1
    exact Or.inr ⟨List.getElem?_eq_none hle, rfl, rfl, List.mem_range'_1.mpr ⟨hle, hlt⟩⟩

theorem issue_native {s : State} (t : Tid) {blocks : List Bytes} (msg : Msg) {p : Addr}
    (h : p ∈ List.range' s.memory.length blocks.length) :
    ∃ c, native (issue s t blocks msg).memory p = some c ∧ c.owner = .native s.calls := by
  obtain ⟨hle, hlt⟩ := List.mem_range'_1.mp h
  have hb : p - s.memory.length < blocks.length := (Nat.sub_lt_iff_lt_add' hle).mpr hlt
  refine ⟨⟨.native s.calls, blocks[p - s.memory.length], true⟩, native_of_owner ?_ rfl, rfl⟩
  refine (List.getElem?_append_right hle).trans ?_
  rw [List.getElem?_map, List.getElem?_eq_getElem hb]
  rfl

theorem Balance.issue {s : State} (hb : Balance s) (t : Tid) {blocks : List Bytes} {msg : Msg}
    (hcall : msg.call = s.calls)
    (hown : msg.own.Perm (List.range' s.memory.length blocks.length))
    (hjava : msg.direct = true → InJava s.memory msg) : Balance (issue s t blocks msg) := by
  have hperm : (inFlight (PublishMemory.issue s t blocks msg)).Perm (msg :: inFlight s) :=
    List.perm_middle
  have hev : Evolves s.memory (PublishMemory.issue s t blocks msg).memory := evolves_append _ _
  have hcalls : ∀ k, k ∈ (inFlight (PublishMemory.issue s t blocks msg)).map Msg.call ↔
      k = s.calls ∨ k ∈ (inFlight s).map Msg.call := by
    intro k
    rw [(hperm.map Msg.call).mem_iff, List.map_cons, List.mem_cons, hcall]
  have hnot : s.calls ∉ (inFlight s).map Msg.call := by
    intro hm
    obtain ⟨m, hm, e⟩ := List.mem_map.mp hm
    have := hb.fresh m hm
    omega
  refine ⟨?_, ?_, ?_, ?_, ?_, fun p hp => hb.unused p (evolves_none hev hp), ?_, ?_⟩
  · intro m hm
    obtain rfl | hm := List.mem_cons.mp (hperm.mem_iff.mp hm)
    · exact hcall ▸ Nat.lt_succ_self _
    · exact Nat.lt_succ_of_lt (hb.fresh m hm)
  · rw [(hperm.map Msg.call).nodup_iff, List.map_cons, List.nodup_cons, hcall]
    exact ⟨hnot, hb.distinct⟩
  · intro p c hc
    obtain hold | ⟨_, ho, hl, _⟩ := native_issue hc
    · obtain ⟨k, hk, ho, hl⟩ := hb.live p c hold
      refine ⟨k, Nat.lt_succ_of_lt hk, ho, hl.trans ?_⟩
      rw [hcalls]
      exact ⟨Or.inr, fun h => h.resolve_left (by omega)⟩
    · exact ⟨s.calls, Nat.lt_succ_self _, ho, iff_of_true hl ((hcalls _).mpr (Or.inl rfl))⟩
  · intro m hm
    obtain rfl | hm := List.mem_cons.mp (hperm.mem_iff.mp hm)
    · refine ⟨hown.nodup_iff.mpr List.nodup_range', fun p => ?_⟩
      rw [hown.mem_iff, hcall]
      refine ⟨issue_native t m, fun ⟨c, hc, ho⟩ => ?_⟩
      obtain hold | ⟨_, _, _, hr⟩ := native_issue hc
      · obtain ⟨k, hk, ho', _⟩ := hb.live p c hold
        rw [ho] at ho'
        cases ho'
        omega
      · exact hr
    · obtain ⟨hnd, hiff⟩ := hb.own m hm
      refine ⟨hnd, fun p => (hiff p).trans ?_⟩
      constructor
      · rintro ⟨c, hc, ho⟩
        obtain ⟨c', hc', ho', _⟩ := frozen_append s.memory _ p c hc
        exact ⟨c', hc', ho'.trans ho⟩
      · rintro ⟨c, hc, ho⟩
        obtain hold | ⟨_, ho', _⟩ := native_issue hc
        · exact ⟨c, hold, ho⟩
        · rw [ho] at ho'
          have := hb.fresh m hm
          have e := Owner.native.inj ho'
          omega
  · intro m hm hd
    obtain rfl | hm := List.mem_cons.mp (hperm.mem_iff.mp hm)
    · exact (hjava hd).evolves hev
    · exact (hb.java m hm hd).evolves hev
  · intro p c hc
    obtain hold | ⟨hp, _, hl, _⟩ := native_issue hc
    · exact hb.freed p c hold
    · rw [hl]
      exact (hb.unused p hp).1
  · intro p c hc ho
    cases hm : s.memory[p]? with
    | none => exact (hb.unused p hm).1.trans (hb.unused p hm).2.symm
    | some c' =>
      obtain ⟨c'', hc'', ho', _⟩ := hev p c' hm
      rw [hc] at hc''
      cases hc''
      exact hb.freedJava p c' hm (ho' ▸ ho)

/-- a step that moves messages between the calls and the queue, or only wakes a thread -/
theorem Balance.move {s s' : State} (hb : Balance s) (hperm : (inFlight s').Perm (inFlight s))
    (hmem : s'.memory = s.memory) (hcalls : s'.calls = s.calls) (hsent : s'.sent = s.sent)
    (hfreed : s'.freed = s.freed) : Balance s' where
  fresh msg hm := hcalls ▸ hb.fresh msg (hperm.mem_iff.mp hm)
  distinct := (hperm.map Msg.call).nodup_iff.mpr hb.distinct
  live p c hc := by
    obtain ⟨k, hk, ho, hl⟩ := hb.live p c (hmem ▸ hc)
    exact ⟨k, hcalls ▸ hk, ho, hl.trans (hperm.map Msg.call).mem_iff.symm⟩
  own msg hm := hmem ▸ hb.own msg (hperm.mem_iff.mp hm)
  java msg hm hd := hmem ▸ hb.java msg (hperm.mem_iff.mp hm) hd
  unused p hp := by
    rw [hfreed, hsent]
    exact hb.unused p (hmem ▸ hp)
  freed p c hc := hfreed ▸ hb.freed p c (hmem ▸ hc)
  freedJava p c hc ho := by
    rw [hfreed, hsent]
    exact hb.freedJava p c (hmem ▸ hc) ho

section
variable {s : State} {msg : Msg} (hb : Balance s) (hm : msg ∈ inFlight s)
include hb hm

theorem Balance.java_owner {p : Addr} (hp : p ∈ msg.java) :
    ∃ c, s.memory[p]? = some c ∧ c.owner = .java := by
  unfold Msg.java at hp
  split at hp
  · next hd =>
    obtain ⟨q, n, c, hpay, hc, ho⟩ := hb.java msg hm hd
    rw [hpay] at hp
    obtain rfl : p = q := by simpa using hp
    exact ⟨c, hc, ho⟩
  · cases hp

/-- a native block is freed with the message of its call, and once -/
theorem Balance.count_native {p : Addr} {c : Cell} {k : Nat} (hc : native s.memory p = some c)
    (ho : c.owner = .native k) : msg.blocks.count p = if k = msg.call then 1 else 0 := by
  obtain ⟨hnd, hiff⟩ := hb.own msg hm
  have hj : msg.java.count p = 0 := by
    refine List.count_eq_zero.mpr fun hp => ?_
    obtain ⟨c', hc', hj⟩ := hb.java_owner hm hp
    rw [(native_some.mp hc).1] at hc'
    cases hc'
    rw [ho] at hj
    cases hj
  rw [msg.count_blocks, hj, Nat.add_zero]
  by_cases hk : k = msg.call
  · rw [if_pos hk]
    exact List.count_eq_one_of_mem hnd ((hiff p).mpr ⟨c, hc, hk ▸ ho⟩)
  · rw [if_neg hk]
    refine List.count_eq_zero.mpr fun hp => ?_
    obtain ⟨c', hc', ho'⟩ := (hiff p).mp hp
    rw [hc] at hc'
    cases hc'
    rw [ho] at ho'
    exact hk (Owner.native.inj ho')

theorem Balance.count_java {p : Addr} {c : Cell} (hc : s.memory[p]? = some c)
    (ho : c.owner = .java) : msg.blocks.count p = msg.java.count p := by
  have h0 : msg.own.count p = 0 := by
    refine List.count_eq_zero.mpr fun hp => ?_
    obtain ⟨c', hc', _⟩ := ((hb.own msg hm).2 p).mp hp
    obtain ⟨hc', hj⟩ := native_some.mp hc'
    rw [hc] at hc'
    cases hc'
    exact hj ho
  rw [msg.count_blocks, h0, Nat.zero_add]

theorem Balance.count_unused {p : Addr} (hp : s.memory[p]? = none) :
    msg.blocks.count p = 0 ∧ msg.java.count p = 0 := by
  have hj : msg.java.count p = 0 := by
    refine List.count_eq_zero.mpr fun hmem => ?_
    obtain ⟨c, hc, _⟩ := hb.java_owner hm hmem
    rw [hp] at hc
    cases hc
  have ho : msg.own.count p = 0 := by
    refine List.count_eq_zero.mpr fun hmem => ?_
    obtain ⟨c, hc, _⟩ := ((hb.own msg hm).2 p).mp hmem
    rw [native, hp] at hc
    cases hc
  exact ⟨by rw [msg.count_blocks, ho, hj], hj⟩

end

theorem Balance.release {s : State} {msg : Msg} {send : SendPath.State Msg} (hb : Balance s)
    (hq : s.send.outputQueue = msg :: send.outputQueue) :
    Balance { release s msg with send := send } := by
  have hfl : inFlight s = msg :: inFlight { PublishMemory.release s msg with send := send } := by
    unfold inFlight
    rw [hq]
    rfl
  have hmsg : msg ∈ inFlight s := hfl ▸ List.mem_cons_self
  have hmem : ∀ m ∈ inFlight { PublishMemory.release s msg with send := send }, m ∈ inFlight s :=
    fun m hm => hfl ▸ List.mem_cons_of_mem msg hm
  have hdist := hb.distinct
  rw [hfl, List.map_cons, List.nodup_cons] at hdist
  have hev : Evolves s.memory (PublishMemory.release s msg).memory := evolves_freeAll _ _
  -- a native block after the step, and the call it belongs to
  have hold : ∀ p c', native (PublishMemory.release s msg).memory p = some c' →
      ∃ c k, native s.memory p = some c ∧ k < s.calls ∧ c.owner = .native k ∧
        (c.live = true ↔ k ∈ (inFlight s).map Msg.call) ∧ c'.owner = .native k ∧
        c'.live = (c.live && decide (k ≠ msg.call)) := by
    intro p c' hc'
    obtain ⟨c, hc, e⟩ := Option.map_eq_some_iff.mp ((native_freeAll _ _ p).symm.trans hc')
    obtain ⟨k, hk, ho, hl⟩ := hb.live p c hc
    have hcount := hb.count_native hmsg hc ho
    refine ⟨c, k, hc, hk, ho, hl, ?_⟩
    by_cases hkm : k = msg.call
    · rw [if_pos hkm] at hcount
      rw [if_pos (List.count_pos_iff.mp (hcount ▸ Nat.one_pos))] at e
      subst e
      exact ⟨ho, by simp [hkm]⟩
    · rw [if_neg hkm] at hcount
      rw [if_neg (List.count_eq_zero.mp hcount)] at e
      subst e
      exact ⟨ho, by simp [hkm]⟩
  refine ⟨fun m hm => hb.fresh m (hmem m hm), hdist.2, fun p c' hc' => ?_, fun m hm => ?_,
    fun m hm hd => (hb.java m (hmem m hm) hd).evolves hev, fun p hp => ?_, fun p c' hc' => ?_,
    fun p c' hc' ho' => ?_⟩
  · obtain ⟨c, k, _, hk, _, hl, ho', hl'⟩ := hold p c' hc'
    refine ⟨k, hk, ho', ?_⟩
    rw [hl', Bool.and_eq_true, hl, hfl, List.map_cons, List.mem_cons, decide_eq_true_eq]
    exact ⟨fun h => h.1.resolve_left h.2, fun h => ⟨Or.inr h, fun e => hdist.1 (e ▸ h)⟩⟩
  · obtain ⟨hnd, hiff⟩ := hb.own m (hmem m hm)
    refine ⟨hnd, fun p => (hiff p).trans ⟨?_, ?_⟩⟩
    · rintro ⟨c, hc, ho⟩
      obtain ⟨c', hc', ho', _⟩ := frozen_freeAll s.memory msg.blocks p c hc
      exact ⟨c', hc', ho'.trans ho⟩
    · rintro ⟨c', hc', ho'⟩
      obtain ⟨c, k, hc, _, ho, _, ho'', _⟩ := hold p c' hc'
      exact ⟨c, hc, ho.trans (ho''.symm.trans ho')⟩
  · have hp' := evolves_none hev hp
    obtain ⟨hf, hj⟩ := hb.unused p hp'
    obtain ⟨hf', hj'⟩ := hb.count_unused hmsg hp'
    simp only [PublishMemory.release, List.count_append, List.flatMap_append, List.flatMap_cons,
      List.flatMap_nil, List.append_nil]
    omega
  · obtain ⟨c, k, hc, _, ho, _, _, hl'⟩ := hold p c' hc'
    simp only [PublishMemory.release, List.count_append]
    rw [hb.freed p c hc, hb.count_native hmsg hc ho, hl']
    by_cases hkm : k = msg.call
    · have hlive : c.live = true := by
        obtain ⟨k', _, ho', hl⟩ := hb.live p c hc
        rw [ho] at ho'
        cases ho'
        exact hl.mpr (hkm ▸ List.mem_map_of_mem hmsg)
      simp [hkm, hlive]
    · simp [hkm]
  · obtain ⟨c, hc, e⟩ := Option.map_eq_some_iff.mp ((getElem?_freeAll _ _ p).symm.trans hc')
    have ho : c.owner = .java := by
      rw [← ho', ← e]
      split_ifs <;> rfl
    simp only [PublishMemory.release, List.count_append, List.flatMap_append, List.flatMap_cons,
      List.flatMap_nil, List.append_nil]
    rw [hb.freedJava p c hc ho, hb.count_java hmsg hc ho]

/-! ## runs -/

theorem balance_step {s s' : State} {a : Act} (hb : Balance s) (h : step s a = some s') :
    Balance s' := by
  by_cases hjava : a.isJava = true
  · exact hb.onJava (step_onJava hjava h)
  by_cases hcall : a.isCall = true
  · obtain ⟨t, blocks, msg, rfl, hc, hown, hj⟩ := step_issues hcall h
    exact hb.issue t hc hown hj
  cases step_effect h with
  | java hs | issue hs => cases a <;> simp_all [Act.isJava, Act.isCall, Act.onPath]
  | enqueue t msg hp send hs e =>
    obtain ⟨hq, _⟩ := SendPath.enqueue_eff hs
    subst e
    refine hb.move ?_ rfl rfl rfl rfl
    unfold inFlight
    dsimp only
    rw [hq, List.append_assoc]
    exact ((List.perm_cons_erase hp).map Prod.snd).symm.append_left _
  | sent a msg send _ hq _ e => exact e ▸ hb.release hq
  | path a send _ hq _ e =>
    subst e
    refine hb.move ?_ rfl rfl rfl rfl
    unfold inFlight
    dsimp only
    rw [hq]

theorem run_balance {as : List Act} {s : State} (h : run step init as = some s) : Balance s :=
  run_inv (fun _ _ _ => balance_step) Balance.init h

/-- **A native block is allocated exactly while its message is in flight**, and is freed once; a
block of Java is freed once for every direct message into it that was sent. -/
theorem allocated_iff_inFlight (as : List Act) (s : State) (h : run step init as = some s)
    (p : Addr) (c : Cell) (hc : s.memory[p]? = some c) :
    (c.owner ≠ .java → (c.live = true ↔ ∃ msg ∈ inFlight s, p ∈ msg.own) ∧
      s.freed.count p = if c.live then 0 else 1) ∧
    (c.owner = .java → s.freed.count p = (s.sent.flatMap fun r => r.1.java).count p) := by
  have hb := run_balance h
  refine ⟨fun ho => ?_, hb.freedJava p c hc⟩
  have hn := native_some.mpr ⟨hc, ho⟩
  obtain ⟨k, _, hk, hl⟩ := hb.live p c hn
  refine ⟨hl.trans ⟨fun hm => ?_, fun ⟨msg, hm, hp⟩ => ?_⟩, hb.freed p c hn⟩
  · obtain ⟨msg, hmsg, rfl⟩ := List.mem_map.mp hm
    exact ⟨msg, hmsg, ((hb.own msg hmsg).2 p).mpr ⟨c, hn, hk⟩⟩
  · obtain ⟨c', hc', ho'⟩ := ((hb.own msg hm).2 p).mp hp
    rw [hn] at hc'
    cases hc'
    rw [hk] at ho'
    exact List.mem_map.mpr ⟨msg, hm, (Owner.native.inj ho').symm⟩

/-- a direct buffer is published twice, and the first message is sent -/
def twiceDirect : List Act :=
  [.allocateDirect 2, .publishDirect 1 [9] 0 2,
    .enqueue 1 ⟨0, .buffer 0, 1, 2, some (0, 2), [0, 0]⟩, .publishDirect 1 [9] 0 2,
    .path (.select {.pipe} ∅), .path .readPipe, .path .receive, .path (.send 12 none)]

theorem allocated_iff_inFlight_twice : ∃ s, run step init twiceDirect = some s ∧
    s.freed.count 0 = 1 ∧ s.freed.count 1 = 1 ∧ s.freed.count 3 = 0 ∧
    ∃ msg ∈ inFlight s, 3 ∈ msg.own := by
  obtain ⟨s, hs, hj, hdead, hlive, hsent⟩ : ∃ s, run step init twiceDirect = some s ∧
      s.memory[0]? = some ⟨.java, [0, 0], false⟩ ∧ s.memory[1]? = some ⟨.native 0, [], false⟩ ∧
      s.memory[3]? = some ⟨.native 1, [], true⟩ ∧
      (s.sent.flatMap fun r => r.1.java).count 0 = 1 := ⟨_, rfl, rfl, rfl, rfl, rfl⟩
  obtain ⟨hin, hcount⟩ := (allocated_iff_inFlight twiceDirect s hs 3 _ hlive).1 nofun
  exact ⟨s, hs, ((allocated_iff_inFlight twiceDirect s hs 0 _ hj).2 rfl).trans hsent,
    ((allocated_iff_inFlight twiceDirect s hs 1 _ hdead).1 nofun).2, hcount, hin.mp rfl⟩

end PublishMemory
end BA
