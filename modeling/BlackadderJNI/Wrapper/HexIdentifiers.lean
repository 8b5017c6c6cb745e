import BlackadderJNI.Wrapper.BAObject

/-!
# Objects created from hexadecimal text

The factories that take a `String` convert it first and check the length of what came out; the
check on the text itself, `isValidIdHex`, is called by none of them.

* `Factory`            the three factories with their scope argument;
* `create_ok_iff`      which texts yield an object: those of an admitted length;
* `createdFromHex_iff` when an accepted text is the identifier it looks like.
-/

namespace BA.Wrapper

/-! ## the factories -/

/-- `createBAScope(String idHex)` -/
def BAScope.createBAScopeHex (n₀ : Nat → UInt32) (scopeIdLength : Nat) (idHex : JavaString) :
    Except ObjectException BAScope :=
  BAScope.createBAScope scopeIdLength (some (BAHelper.hexToByte n₀ idHex))

/-- `createBAScope(String idHex, BAScope prefix)` -/
def BAScope.createBAScopeHexUnder (n₀ : Nat → UInt32) (scopeIdLength : Nat) (idHex : JavaString)
    (prefixScope : Option BAScope) : Except ObjectException BAScope :=
  BAScope.createBAScopeUnder scopeIdLength (some (BAHelper.hexToByte n₀ idHex)) prefixScope

/-- `createBAItem(String idHex, BAScope scope)` -/
def BAItem.createBAItemHex (n₀ : Nat → UInt32) (scopeIdLength : Nat) (idHex : JavaString)
    (scope : Option BAScope) : Except ObjectException BAItem :=
  BAItem.createBAItem scopeIdLength (some (BAHelper.hexToByte n₀ idHex)) scope

inductive Factory where
  | scope
  | scopeUnder (s : BAScope)
  | itemUnder (s : BAScope)

def Factory.create (n₀ : Nat → UInt32) (k : Nat) (h : JavaString) :
    Factory → Except ObjectException BAObject
  | .scope => (BAScope.createBAScopeHex n₀ k h).map BAScope.toBAObject
  | .scopeUnder s => (BAScope.createBAScopeHexUnder n₀ k h (some s)).map BAScope.toBAObject
  | .itemUnder s => (BAItem.createBAItemHex n₀ k h (some s)).map BAItem.toBAObject

/-- the full identifier above the new object -/
def Factory.above : Factory → Option Bytes
  | .scope => some []
  | .scopeUnder s => s.fullId
  | .itemUnder s => s.fullId

/-- the scope argument was itself built by the constructors -/
def Factory.Built (k : Nat) : Factory → Prop
  | .scope => True
  | .scopeUnder s => ∃ given above depth, ScopeMade k given above depth s
  | .itemUnder s => ∃ given above depth, ScopeMade k given above depth s

/-! ## which texts are accepted -/

section
variable {n₀ : Nat → UInt32} {k : Nat} {h : JavaString} {f : Factory} {o : BAObject}

theorem Factory.Built.above_eq (hk : 0 < k) (hf : f.Built k) :
    ∃ a, f.above = some a ∧ k ∣ a.length := by
  cases f with
  | scope => exact ⟨[], rfl, Nat.dvd_zero k⟩
  | scopeUnder s =>
    obtain ⟨_, _, _, hs⟩ := hf
    exact (identified_of_scopeMade hk hs).dvd
  | itemUnder s =>
    obtain ⟨_, _, _, hs⟩ := hf
    exact (identified_of_scopeMade hk hs).dvd

/-- the class of the new object adds no field that the constructor of `BAObject` sets -/
theorem map_checked {ε α β : Type} {c : Prop} [Decidable c] {x : Except ε α} {e : ε} {mk : α → β}
    {out : β → α} (hout : ∀ y, out (mk y) = y) :
    (if c then x.map mk else .error e).map out = if c then x else .error e := by
  split
  · cases x with
    | error e => rfl
    | ok y => exact congrArg Except.ok (hout y)
  · rfl

/-- what the factories share: the conversion, the length test, the constructor -/
theorem create_eq {a : Bytes} (ha : f.above = some a) :
    f.create n₀ k h =
      if BAHelper.isValidId (some (BAHelper.hexToByte n₀ h)) k = true then
        BAObject.new k (some (BAHelper.hexToByte n₀ h)) (some a)
      else .error (.invalidBlackadderId (BAHelper.hexToByte n₀ h).length) := by
  rw [← ha]
  cases f with
  | scope => exact map_checked fun _ => rfl
  | scopeUnder s => exact map_checked fun _ => rfl
  | itemUnder s => exact map_checked fun _ => rfl

@[simp] theorem length_hexToByte (n₀ : Nat → UInt32) (h : JavaString) :
    (BAHelper.hexToByte n₀ h).length = (getStringUTFChars h).length / 2 :=
  length_hexToChararray n₀ _

/-- the converted text is a positive number of segments -/
def Admitted (k : Nat) (h : JavaString) : Prop :=
  0 < (getStringUTFChars h).length / 2 ∧ k ∣ (getStringUTFChars h).length / 2

theorem create_ok_iff (hk : 0 < k) (hf : f.Built k) :
    (∃ o, f.create n₀ k h = .ok o) ↔ Admitted k h := by
  obtain ⟨a, ha, hak⟩ := hf.above_eq hk
  rw [create_eq ha]
  unfold Admitted
  rw [← length_hexToByte n₀ h]
  by_cases hv : BAHelper.isValidId (some (BAHelper.hexToByte n₀ h)) k = true
  · have hdvd := isValidId_some.1 hv
    rw [if_pos hv, new_eq hk hdvd hak]
    by_cases hlen : k ≤ (BAHelper.hexToByte n₀ h).length
    · rw [if_pos hlen]
      exact ⟨fun _ => ⟨by omega, hdvd⟩, fun _ => ⟨_, rfl⟩⟩
    · rw [if_neg hlen]
      refine iff_of_false (fun ⟨_, ho⟩ => by cases ho) fun hadm => ?_
      exact hlen (Nat.le_of_dvd hadm.1 hdvd)
  · rw [if_neg hv]
    refine iff_of_false (fun ⟨_, ho⟩ => by cases ho) fun hadm => ?_
    exact hv (isValidId_some.2 hadm.2)

theorem create_id (hk : 0 < k) (hf : f.Built k) (ho : f.create n₀ k h = .ok o) :
    o.id = BAHelper.hexToByte n₀ h := by
  obtain ⟨a, ha, hak⟩ := hf.above_eq hk
  rw [create_eq ha] at ho
  split at ho
  · next hv =>
    rw [new_eq hk (isValidId_some.1 hv) hak] at ho
    split at ho
    · cases ho
      rfl
    · cases ho
  · cases ho

theorem isValidIdHex_some {h : JavaString} :
    BAHelper.isValidIdHex (some h) k = true ↔ h ≠ [] ∧ k * 2 ∣ h.length := by
  show (if h = [] then false else h.length % (k * 2) == 0) = true ↔ _
  by_cases hnil : h = []
  · simp [hnil]
  · rw [if_neg hnil, beq_iff_eq, ← Nat.dvd_iff_mod_eq_zero]
    exact ⟨fun hd => ⟨hnil, hd⟩, fun hd => hd.2⟩

end

/-! ## which of them are the identifiers they look like -/

/-- an object made of the text `h` has `h` as its identifier -/
def HexIdentified (n₀ : Nat → UInt32) (k : Nat) (f : Factory) (h : JavaString) : Prop :=
  ∀ o, f.create n₀ k h = .ok o →
    BAHelper.isValidIdHex (some h) k = true ∧ (∀ c ∈ h, IsHexDigit c) ∧
      (BAHelper.byteToHex (some o.id)).map javaString = some (toLowerCase h)

/-- a text that the length test lets through has an even number of characters, all of them
hexadecimal digits -/
def Clean (k : Nat) (h : JavaString) : Prop :=
  Admitted k h → (∀ c ∈ h, IsHexDigit c) ∧ h.length % 2 = 0

section
variable {n₀ : Nat → UInt32} {k : Nat} {h : JavaString} {f : Factory} {o : BAObject}

theorem length_getStringUTFChars (hh : ∀ c ∈ h, IsHexDigit c) :
    (getStringUTFChars h).length = h.length := by
  have hlen := congrArg List.length (getStringUTFChars_of_digits hh)
  rwa [List.length_map, List.length_map] at hlen

theorem hexIdentified_iff (hk : 0 < k) (hf : f.Built k) : HexIdentified n₀ k f h ↔ Clean k h := by
  refine ⟨fun hid hadm => ?_, fun hclean o ho => ?_⟩
  · obtain ⟨o, ho⟩ := (create_ok_iff hk hf).2 hadm
    obtain ⟨hvalid, hdig, -⟩ := hid o ho
    refine ⟨hdig, ?_⟩
    obtain ⟨m, hm⟩ := (isValidIdHex_some.1 hvalid).2
    rw [hm, Nat.mul_comm k 2, Nat.mul_assoc]
    exact Nat.mul_mod_right 2 _
  · have hadm : Admitted k h := (create_ok_iff hk hf).1 ⟨o, ho⟩
    obtain ⟨hdig, heven⟩ := hclean hadm
    obtain ⟨hpos, hdvd⟩ := hadm
    rw [length_getStringUTFChars hdig] at hpos hdvd
    refine ⟨isValidIdHex_some.2 ⟨?_, ?_⟩, hdig, ?_⟩
    · rintro rfl
      exact absurd hpos (by decide)
    · obtain ⟨m, hm⟩ := hdvd
      exact ⟨m, by rw [Nat.mul_right_comm, ← hm]; omega⟩
    · rw [create_id hk hf ho]
      exact byteToHex_hexToByte n₀ heven hdig

end

/-- **When a text is the identifier of the object made of it.** -/
theorem createdFromHex_iff (n₀ : Nat → UInt32) (f : Factory) (hf : f.Built 8) :
    (∀ h, HexIdentified n₀ 8 f h ↔ Clean 8 h) ∧
    ∀ (n₁ : Nat → UInt32) (g : Factory), g.Built 8 → ∀ h h' o o', Clean 8 h → Clean 8 h' →
      f.create n₀ 8 h = .ok o → g.create n₁ 8 h' = .ok o' → o.id = o'.id →
      toLowerCase h = toLowerCase h' := by
  refine ⟨fun h => hexIdentified_iff (by decide) hf, fun n₁ g hg h h' o o' hc hc' ho ho' hid => ?_⟩
  obtain ⟨-, -, htext⟩ := (hexIdentified_iff (by decide) hf).2 hc o ho
  obtain ⟨-, -, htext'⟩ := (hexIdentified_iff (by decide) hg).2 hc' o' ho'
  rw [hid, htext'] at htext
  exact (Option.some.inj htext).symm

/-- an item below the root scope of eight zero bytes, named by 16 characters -/
theorem createdFromHex_iff_item :
    HexIdentified (fun _ => 0) 8
      (.itemUnder { id := List.replicate 8 0, prefixId := [], fullId := some (List.replicate 8 0),
                    idHex := some "/0000000000000000" }) (List.replicate 16 65) := by
  have hroot : ScopeMade 8 (some (List.replicate 8 0)) (some []) 1
      { id := List.replicate 8 0, prefixId := [], fullId := some (List.replicate 8 0),
        idHex := some "/0000000000000000" } := .root (by decide)
  exact ((createdFromHex_iff (fun _ => 0) (.itemUnder _) ⟨_, _, _, hroot⟩).1 _).2
    fun _ => ⟨fun c hc => by rw [List.eq_of_mem_replicate hc]; decide, by decide⟩

/-- an odd last digit is dropped, and `zz` is read as 0: both texts are accepted, as one
identifier -/
theorem lookalikes_accepted :
    ¬HexIdentified (fun _ => 0) 8 .scope (List.replicate 17 48) ∧
      ¬HexIdentified (fun _ => 0) 8 .scope (List.replicate 16 122) ∧
      (Factory.scope.create (fun _ => 0) 8 (List.replicate 17 48)).map BAObject.id =
        .ok (List.replicate 8 0) ∧
      (Factory.scope.create (fun _ => 0) 8 (List.replicate 16 122)).map BAObject.id =
        .ok (List.replicate 8 0) := by
  refine ⟨fun hid => ?_, fun hid => ?_, by decide, by decide⟩
  · obtain ⟨hvalid, -, -⟩ := hid ⟨List.replicate 8 0, [], some (List.replicate 8 0),
      some "/0000000000000000"⟩ (by decide)
    exact absurd hvalid (by decide)
  · obtain ⟨-, hdig, -⟩ := hid ⟨List.replicate 8 0, [], some (List.replicate 8 0),
      some "/0000000000000000"⟩ (by decide)
    exact absurd (hdig 122 (by decide)) (by decide)

end BA.Wrapper
