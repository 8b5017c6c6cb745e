import BlackadderJNI.Wrapper.BAHelper
import BlackadderJNI.Lib.Segments

/-!
# Identified objects: scopes, items and their identifiers

Translation of `data/BAObject.java`, `data/BAScope.java`, `data/BAItem.java` and of the functions
on identifiers in `BAHelper.java`.  The length `scopeIdLength` of one segment is a parameter; it
is positive (`setScopeIdLength`), so that the remainders below are defined.

* `insertSlashes_append`, `byteToPrettyHex_eq`   the loop puts a separator before each segment;
* `new_eq`                                       what the constructor makes of valid identifiers;
* `identified_of_made`, `identifier_tree`        every composition of the constructors.
-/

namespace BA.Wrapper

/-! ## identifiers -/

inductive ObjectException where
  | nullPointer
  | arrayIndexOutOfBounds
  | invalidBlackadderId (length : Nat)
  deriving DecidableEq

def BAHelper.isValidId : Option Bytes → Nat → Bool
  | none, _ => false
  | some id, segLength => id.length % segLength == 0

def BAHelper.isValidIdHex : Option JavaString → Nat → Bool
  | none, _ => false
  | some idHex, segLength => if idHex = [] then false else idHex.length % (segLength * 2) == 0

def BAHelper.addSegment : Option Bytes → Option Bytes → Nat → Option Bytes
  | _, none, _ => none
  | none, some second, _ => some second
  | some first, some second, segLength =>
    if BAHelper.isValidId (some first) segLength &&
        BAHelper.isValidId (some second) segLength then
      some (first ++ second)
    else none

/-- `System.arraycopy` of `length` bytes from `srcPos` into a new array -/
def arraycopy (src : Bytes) (srcPos : Int) (length : Nat) : Except ObjectException Bytes :=
  if 0 ≤ srcPos ∧ srcPos + length ≤ src.length then
    .ok ((src.drop srcPos.toNat).take length)
  else .error .arrayIndexOutOfBounds

def BAHelper.getTailSeg : Option Bytes → Nat → Nat → Except ObjectException (Option Bytes)
  | none, _, _ => .ok none
  | some absoluteId, countFromTail, segLength =>
    if BAHelper.isValidId (some absoluteId) segLength then
      (arraycopy absoluteId (absoluteId.length - segLength * countFromTail) segLength).map some
    else .ok none

def BAHelper.getPureId (fullId : Option Bytes) (segLength : Nat) :
    Except ObjectException (Option Bytes) :=
  BAHelper.getTailSeg fullId 1 segLength

/-- `for (int i = …; i >= 0; i -= segLength) buf.insert(i, '/')` -/
def insertSlashes (segLength : Nat) : Nat → Int → List Char → List Char
  | 0, _, buf => buf
  | fuel + 1, i, buf =>
    if 0 ≤ i then
      insertSlashes segLength fuel (i - segLength) (buf.take i.toNat ++ '/' :: buf.drop i.toNat)
    else buf

def BAHelper.byteToPrettyHex (fullId : Option Bytes) (segLength : Nat) : Option String :=
  if BAHelper.isValidId fullId segLength then
    (BAWrapperShared.cCharToHex fullId).map fun text =>
      let buf := text.toList
      String.ofList (insertSlashes (segLength * 2) buf.length (buf.length - (segLength * 2 : Nat))
        buf)
  else none

/-! ## objects -/

structure BAObject where
  id : Bytes
  prefixId : Bytes
  fullId : Option Bytes
  idHex : Option String
  deriving DecidableEq

/-- the constructor `BAObject(id, prefix)` -/
def BAObject.new (scopeIdLength : Nat) :
    Option Bytes → Option Bytes → Except ObjectException BAObject
  | some id, some prefixId =>
    let pureId := if id.length = scopeIdLength then .ok (some id)
      else BAHelper.getPureId (some id) scopeIdLength
    pureId.map fun pureId =>
      let fullId := BAHelper.addSegment (some prefixId) pureId scopeIdLength
      { id, prefixId, fullId, idHex := BAHelper.byteToPrettyHex fullId scopeIdLength }
  | _, _ => .error .nullPointer

structure BAScope extends BAObject
  deriving DecidableEq

structure BAItem extends BAObject where
  startPublish : Bool := false
  deriving DecidableEq

/-- `createBAScope(byte[] id)` -/
def BAScope.createBAScope (scopeIdLength : Nat) : Option Bytes → Except ObjectException BAScope
  | none => .error .nullPointer   -- `id.length` of the message
  | some id =>
    if BAHelper.isValidId (some id) scopeIdLength then
      (BAObject.new scopeIdLength (some id) (some [])).map BAScope.mk
    else .error (.invalidBlackadderId id.length)

/-- `createBAScope(byte[] id, BAScope prefix)` -/
def BAScope.createBAScopeUnder (scopeIdLength : Nat) :
    Option Bytes → Option BAScope → Except ObjectException BAScope
  | none, _ => .error .nullPointer
  | some id, none => .error (.invalidBlackadderId id.length)
  | some id, some prefixScope =>
    if BAHelper.isValidId (some id) scopeIdLength then
      (BAObject.new scopeIdLength (some id) prefixScope.fullId).map BAScope.mk
    else .error (.invalidBlackadderId id.length)

/-- the constructor `BAScope(BAScope scope, BAScope prefix)` -/
def BAScope.republish (scopeIdLength : Nat) :
    Option BAScope → Option BAScope → Except ObjectException BAScope
  | some scope, some prefixScope =>
    (BAObject.new scopeIdLength scope.fullId prefixScope.fullId).map BAScope.mk
  | _, _ => .error .nullPointer

/-- `createBAItem(byte[] id, BAScope scope)` -/
def BAItem.createBAItem (scopeIdLength : Nat) :
    Option Bytes → Option BAScope → Except ObjectException BAItem
  | none, _ => .error .nullPointer
  | some id, scope =>
    if BAHelper.isValidId (some id) scopeIdLength then
      match scope with
      | none => .error .nullPointer
      | some scope =>
        (BAObject.new scopeIdLength (some id) scope.fullId).map fun o => { toBAObject := o }
    else .error (.invalidBlackadderId id.length)

/-- `createBAItem(BAItem item, BAScope newScope)` -/
def BAItem.createBAItemUnder (scopeIdLength : Nat) :
    Option BAItem → Option BAScope → Except ObjectException BAItem
  | some item, some newScope =>
    (BAObject.new scopeIdLength item.fullId newScope.fullId).map fun o => { toBAObject := o }
  | _, _ => .error .nullPointer

/-! ## identifiers of whole segments -/

section
variable {k : Nat}

theorem isValidId_some {id : Bytes} : BAHelper.isValidId (some id) k = true ↔ k ∣ id.length :=
  beq_iff_eq.trans Nat.dvd_iff_mod_eq_zero.symm

theorem getPureId_eq {id : Bytes} (hv : k ∣ id.length) :
    BAHelper.getPureId (some id) k =
      if k ≤ id.length then .ok (some (id.drop (id.length - k)))
      else .error .arrayIndexOutOfBounds := by
  show (if BAHelper.isValidId (some id) k = true then
    (arraycopy id (id.length - (k : Int) * ((1 : Nat) : Int)) k).map some else .ok none) = _
  unfold arraycopy
  rw [if_pos (isValidId_some.2 hv)]
  by_cases h : k ≤ id.length
  · have hpos : ((id.length : Int) - (k : Int) * ((1 : Nat) : Int)).toNat = id.length - k := by
      omega
    have hlen : (id.drop (id.length - k)).length = k := by
      rw [List.length_drop]
      omega
    rw [if_pos h, if_pos (by omega), hpos, List.take_of_length_le (Nat.le_of_eq hlen)]
    rfl
  · rw [if_neg h, if_neg (by omega)]
    rfl

/-- an identifier of one segment is its own last segment: both branches of the constructor agree -/
theorem getPureId_single {id : Bytes} (hid : id.length = k) :
    BAHelper.getPureId (some id) k = .ok (some id) := by
  have hv : k ∣ id.length := hid ▸ Nat.dvd_refl _
  rw [getPureId_eq hv, if_pos (Nat.le_of_eq hid.symm), hid, Nat.sub_self]
  rfl

theorem insertSlashes_append {w : Nat} (hw : 0 < w) {buf : List Char} (hbuf : w ∣ buf.length)
    (fuel : Nat) (hfuel : buf.length ≤ fuel * w) (rest : List Char) :
    insertSlashes w fuel (buf.length - w) (buf ++ rest) =
      Segments.separate '/' w buf ++ rest := by
  revert fuel rest
  refine Segments.snoc_induction hw (fun fuel _ rest => ?_)
    (fun l s hl hs ih fuel hfuel rest => ?_) buf hbuf
  · cases fuel with
    | zero => simp [insertSlashes]
    | succ fuel =>
      unfold insertSlashes
      rw [if_neg (by simp; omega)]
      simp
  · rw [List.length_append, hs] at hfuel
    obtain ⟨f, rfl⟩ : ∃ f, fuel = f + 1 :=
      Nat.exists_eq_succ_of_ne_zero (by rintro rfl; omega)
    have hi : (((l ++ s).length : Nat) : Int) - (w : Int) = l.length := by
      rw [List.length_append, hs]
      omega
    have hins : (l ++ s ++ rest).take l.length ++ '/' :: (l ++ s ++ rest).drop l.length =
        l ++ ('/' :: s ++ rest) := by
      rw [List.append_assoc, List.take_left, List.drop_left]
      rfl
    rw [hi]
    unfold insertSlashes
    rw [if_pos (by omega), Int.toNat_natCast, hins, ih f (by rw [Nat.succ_mul] at hfuel; omega),
      Segments.separate_append '/' hw hl hs, List.append_assoc]

/-- the text of an identifier: each segment in hexadecimal, after a separator -/
def prettyHex (k : Nat) (id : Bytes) : String :=
  String.ofList ((Segments.segments k id).flatMap fun s => '/' :: chararrayToHex s)

theorem separate_chararrayToHex (hk : 0 < k) {id : Bytes} (hv : k ∣ id.length) :
    Segments.separate '/' (2 * k) (chararrayToHex id) =
      (Segments.segments k id).flatMap fun s => '/' :: chararrayToHex s := by
  have hbyte : ∀ c : UInt8,
      (if c.toNat > 15 then hex c.toNat else '0' :: hex c.toNat).length = 2 := fun c => by
    rw [← List.length_map, byteText_codes]
    rfl
  unfold Segments.separate chararrayToHex
  rw [Segments.segments_flatMap hk (by omega) hbyte hv, List.flatMap_map]

theorem byteToPrettyHex_eq (hk : 0 < k) {id : Bytes} (hv : k ∣ id.length) :
    BAHelper.byteToPrettyHex (some id) k = some (prettyHex k id) := by
  have hlen : 2 * k ∣ (chararrayToHex id).length := by
    rw [length_chararrayToHex]
    exact Nat.mul_dvd_mul_left 2 hv
  have hloop := insertSlashes_append (by omega) hlen _ (Nat.le_mul_of_pos_right _ (by omega)) []
  rw [List.append_nil, List.append_nil, separate_chararrayToHex hk hv, Nat.mul_comm 2 k] at hloop
  unfold BAHelper.byteToPrettyHex
  rw [if_pos (isValidId_some.2 hv)]
  show some (String.ofList (insertSlashes _ (String.ofList _).toList.length _ _)) = _
  rw [String.toList_ofList, hloop]
  rfl

/-- what the constructor makes of a given identifier and of the one above it, both of whole
segments: the last segment of the first is put under the second -/
theorem new_eq (hk : 0 < k) {b a : Bytes} (hb : k ∣ b.length) (ha : k ∣ a.length) :
    BAObject.new k (some b) (some a) =
      if k ≤ b.length then
        .ok { id := b, prefixId := a, fullId := some (a ++ b.drop (b.length - k)),
              idHex := some (prettyHex k (a ++ b.drop (b.length - k))) }
      else .error .arrayIndexOutOfBounds := by
  have hpure : (if b.length = k then .ok (some b) else BAHelper.getPureId (some b) k) =
      BAHelper.getPureId (some b) k := by
    split
    · next h => rw [getPureId_single h]
    · rfl
  show Except.map _ (if b.length = k then .ok (some b) else BAHelper.getPureId (some b) k) = _
  rw [hpure, getPureId_eq hb]
  by_cases h : k ≤ b.length
  · have htail : (b.drop (b.length - k)).length = k := by
      rw [List.length_drop]
      omega
    have hadd : BAHelper.addSegment (some a) (some (b.drop (b.length - k))) k =
        some (a ++ b.drop (b.length - k)) := by
      have hva : BAHelper.isValidId (some a) k = true := isValidId_some.2 ha
      have hvt : BAHelper.isValidId (some (b.drop (b.length - k))) k = true :=
        isValidId_some.2 ⟨1, by rw [htail, Nat.mul_one]⟩
      simp [BAHelper.addSegment, hva, hvt]
    have hfull : k ∣ (a ++ b.drop (b.length - k)).length := by
      rw [List.length_append, htail]
      exact Nat.dvd_add ha (Nat.dvd_refl k)
    rw [if_pos h, if_pos h]
    show Except.ok (BAObject.mk b a (BAHelper.addSegment _ _ k) _) = _
    rw [hadd, byteToPrettyHex_eq hk hfull]
  · rw [if_neg h, if_neg h]
    rfl

/-! ## every composition of the constructors -/

/-- `s` was made from the identifier `given`, under the full identifier `above`, with `depth`
objects on its chain -/
inductive ScopeMade (k : Nat) : Option Bytes → Option Bytes → Nat → BAScope → Prop
  | root {id s} : BAScope.createBAScope k id = .ok s → ScopeMade k id (some []) 1 s
  | child {given above depth p id s} : ScopeMade k given above depth p →
      BAScope.createBAScopeUnder k id (some p) = .ok s →
      ScopeMade k id p.fullId (depth + 1) s
  | republished {given above depth o given' above' depth' p s} : ScopeMade k given above depth o →
      ScopeMade k given' above' depth' p → BAScope.republish k (some o) (some p) = .ok s →
      ScopeMade k o.fullId p.fullId (depth' + 1) s

inductive ItemMade (k : Nat) : Option Bytes → Option Bytes → Nat → BAItem → Prop
  | created {given above depth p id i} : ScopeMade k given above depth p →
      BAItem.createBAItem k id (some p) = .ok i → ItemMade k id p.fullId (depth + 1) i
  | republished {given above depth o given' above' depth' p i} : ItemMade k given above depth o →
      ScopeMade k given' above' depth' p → BAItem.createBAItemUnder k (some o) (some p) = .ok i →
      ItemMade k o.fullId p.fullId (depth' + 1) i

inductive Made (k : Nat) (given above : Option Bytes) (depth : Nat) : BAObject → Prop
  | scope {s} : ScopeMade k given above depth s → Made k given above depth s.toBAObject
  | item {i} : ItemMade k given above depth i → Made k given above depth i.toBAObject

/-- the identifiers of an object agree with how it was made -/
structure Identified (k : Nat) (given above : Option Bytes) (depth : Nat) (o : BAObject) :
    Prop where
  fullId : ∃ b a, given = some b ∧ above = some a ∧ k ≤ b.length ∧
    o.fullId = some (a ++ b.drop (b.length - k))
  length : ∃ f, o.fullId = some f ∧ f.length = k * depth
  idHex : ∃ f, o.fullId = some f ∧ o.idHex = some (prettyHex k f)

theorem Identified.dvd {given above : Option Bytes} {depth : Nat} {o : BAObject}
    (h : Identified k given above depth o) : ∃ f, o.fullId = some f ∧ k ∣ f.length := by
  obtain ⟨f, hf, hlen⟩ := h.length
  exact ⟨f, hf, depth, hlen⟩

/-- one construction, under an identifier of `depth` segments -/
theorem identified_of_new (hk : 0 < k) {given above : Option Bytes} {depth : Nat} {o : BAObject}
    (hgiven : ∃ b, given = some b ∧ k ∣ b.length)
    (habove : ∃ a, above = some a ∧ a.length = k * depth)
    (h : BAObject.new k given above = .ok o) : Identified k given above (depth + 1) o := by
  obtain ⟨b, rfl, hb⟩ := hgiven
  obtain ⟨a, rfl, ha⟩ := habove
  rw [new_eq hk hb ⟨depth, ha⟩] at h
  split at h
  · next hkb =>
    cases h
    have hlen : (a ++ b.drop (b.length - k)).length = k * (depth + 1) := by
      rw [List.length_append, List.length_drop, ha, Nat.mul_succ]
      omega
    exact ⟨⟨b, a, rfl, rfl, hkb, rfl⟩, ⟨_, rfl, hlen⟩, ⟨_, rfl, rfl⟩⟩
  · cases h

theorem map_ok {ε α β : Type} {f : α → β} {x : Except ε α} {y : β} (h : x.map f = .ok y) :
    ∃ o, x = .ok o ∧ f o = y := by
  cases x with
  | error e => cases h
  | ok o => exact ⟨o, rfl, Except.ok.inj h⟩

/-- what the three factories share: the check of the identifier, then the constructor -/
theorem checked_ok {α β : Type} {b : Bytes} {x : Except ObjectException α} {f : α → β}
    {e : ObjectException} {y : β}
    (h : (if BAHelper.isValidId (some b) k = true then x.map f else .error e) = .ok y) :
    k ∣ b.length ∧ ∃ o, x = .ok o ∧ f o = y := by
  split at h
  · next hv => exact ⟨isValidId_some.1 hv, map_ok h⟩
  · cases h

theorem createBAScope_ok {id : Option Bytes} {s : BAScope}
    (h : BAScope.createBAScope k id = .ok s) :
    (∃ b, id = some b ∧ k ∣ b.length) ∧ BAObject.new k id (some []) = .ok s.toBAObject := by
  cases id with
  | none => cases h
  | some b =>
    obtain ⟨hb, o, ho, rfl⟩ := checked_ok h
    exact ⟨⟨b, rfl, hb⟩, ho⟩

theorem createBAScopeUnder_ok {id : Option Bytes} {p s : BAScope}
    (h : BAScope.createBAScopeUnder k id (some p) = .ok s) :
    (∃ b, id = some b ∧ k ∣ b.length) ∧ BAObject.new k id p.fullId = .ok s.toBAObject := by
  cases id with
  | none => cases h
  | some b =>
    obtain ⟨hb, o, ho, rfl⟩ := checked_ok h
    exact ⟨⟨b, rfl, hb⟩, ho⟩

theorem createBAItem_ok {id : Option Bytes} {p : BAScope} {i : BAItem}
    (h : BAItem.createBAItem k id (some p) = .ok i) :
    (∃ b, id = some b ∧ k ∣ b.length) ∧ BAObject.new k id p.fullId = .ok i.toBAObject := by
  cases id with
  | none => cases h
  | some b =>
    obtain ⟨hb, o, ho, rfl⟩ := checked_ok h
    exact ⟨⟨b, rfl, hb⟩, ho⟩

theorem identified_of_scopeMade (hk : 0 < k) {given above : Option Bytes} {depth : Nat}
    {s : BAScope} (h : ScopeMade k given above depth s) :
    Identified k given above depth s.toBAObject := by
  induction h with
  | root hnew =>
    obtain ⟨hid, ho⟩ := createBAScope_ok hnew
    exact identified_of_new hk hid ⟨[], rfl, rfl⟩ ho
  | child _ hnew ihp =>
    obtain ⟨hid, ho⟩ := createBAScopeUnder_ok hnew
    exact identified_of_new hk hid ihp.length ho
  | republished _ _ hnew iho ihp =>
    obtain ⟨x, hx, rfl⟩ := map_ok hnew
    exact identified_of_new hk iho.dvd ihp.length hx

theorem identified_of_itemMade (hk : 0 < k) {given above : Option Bytes} {depth : Nat}
    {i : BAItem} (h : ItemMade k given above depth i) :
    Identified k given above depth i.toBAObject := by
  induction h with
  | created hp hnew =>
    obtain ⟨hid, ho⟩ := createBAItem_ok hnew
    exact identified_of_new hk hid (identified_of_scopeMade hk hp).length ho
  | republished _ hp hnew iho =>
    obtain ⟨x, hx, rfl⟩ := map_ok hnew
    exact identified_of_new hk iho.dvd (identified_of_scopeMade hk hp).length hx

theorem identified_of_made (hk : 0 < k) {given above : Option Bytes} {depth : Nat} {o : BAObject}
    (h : Made k given above depth o) : Identified k given above depth o := by
  cases h with
  | scope hs => exact identified_of_scopeMade hk hs
  | item hi => exact identified_of_itemMade hk hi

theorem slash_notMem (b : Bytes) : '/' ∉ chararrayToHex b := fun hm => by
  have hcode : Char.toNat '/' ∈ Hex.encode b := by
    rw [← chararrayToHex_codes]
    exact List.mem_map_of_mem hm
  exact absurd (Hex.isLowerDigit_encode hcode) (by decide)

theorem chararrayToHex_injective {a b : Bytes} (h : chararrayToHex a = chararrayToHex b) :
    a = b := by
  apply Hex.encode_injective
  rw [← chararrayToHex_codes, h, chararrayToHex_codes]

theorem prettyHex_injective (hk : 0 < k) {f g : Bytes} (hf : k ∣ f.length) (hg : k ∣ g.length)
    (h : prettyHex k f = prettyHex k g) : f = g := by
  have hlen : ∀ {b : Bytes}, k ∣ b.length → 2 * k ∣ (chararrayToHex b).length := fun hb => by
    rw [length_chararrayToHex]
    exact Nat.mul_dvd_mul_left 2 hb
  have htext := String.ofList_injective h
  rw [← separate_chararrayToHex hk hf, ← separate_chararrayToHex hk hg] at htext
  exact chararrayToHex_injective (Segments.separate_injective (by omega) (hlen hf) (hlen hg)
    (slash_notMem f) (slash_notMem g) htext)

/-- **Identifiers form a tree.** -/
theorem identifier_tree (hk : 0 < k) :
    (∀ given above depth o, Made k given above depth o → Identified k given above depth o) ∧
    (∀ id : Bytes, id.length = k → BAHelper.getPureId (some id) k = .ok (some id)) ∧
    ∀ given above depth o given' above' depth' o', Made k given above depth o →
      Made k given' above' depth' o' → (o.idHex = o'.idHex ↔ o.fullId = o'.fullId) := by
  refine ⟨fun _ _ _ _ h => identified_of_made hk h, fun _ hid => getPureId_single hid,
    fun _ _ _ o _ _ _ o' h h' => ?_⟩
  obtain ⟨f, hf, hhex⟩ := (identified_of_made hk h).idHex
  obtain ⟨g, hg, hhex'⟩ := (identified_of_made hk h').idHex
  obtain ⟨f', hf', hdf⟩ := (identified_of_made hk h).dvd
  obtain ⟨g', hg', hdg⟩ := (identified_of_made hk h').dvd
  cases hf.symm.trans hf'
  cases hg.symm.trans hg'
  rw [hhex, hhex', hf, hg]
  refine ⟨fun he => ?_, fun he => ?_⟩
  · rw [prettyHex_injective hk hdf hdg (Option.some.inj he)]
  · rw [Option.some.inj he]

end

/-- an item below a root scope, with segments of two bytes -/
theorem identifier_tree_item :
    Identified 2 (some [0, 255]) (some [10, 0]) 2
      { id := [0, 255], prefixId := [10, 0], fullId := some [10, 0, 0, 255],
        idHex := some "/0a00/00ff" } := by
  have hroot : ScopeMade 2 (some [10, 0]) (some []) 1
      { id := [10, 0], prefixId := [], fullId := some [10, 0], idHex := some "/0a00" } :=
    .root (by decide)
  have hitem : ItemMade 2 (some [0, 255]) (some [10, 0]) 2
      { id := [0, 255], prefixId := [10, 0], fullId := some [10, 0, 0, 255],
        idHex := some "/0a00/00ff" } := .created hroot (by decide)
  exact (identifier_tree (by decide)).1 _ _ _ _ (.item hitem)

end BA.Wrapper
