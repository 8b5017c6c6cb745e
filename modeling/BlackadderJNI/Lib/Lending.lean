import BlackadderJNI.Lib.Run
import Mathlib.Data.List.Basic
import Mathlib.Logic.Function.Basic

/-!
# Arrays that are lent

A lender has arrays of fixed sizes, and lends one of them by a pointer to it or by a copy, as it
likes.  A borrower runs a script over its variables: it gets the elements of an array, reads some of
them, writes to them, and releases them, with the array named again and a mode; a copy is then
written to the array named, unless the mode is `abort`.  Any number of borrowers run interleaved,
while others write to the arrays.

* `Lender`, `get`, `elements`, `store`, `release`   the arrays, and the loans made so far by number;
* `Extent`            how many of the elements a statement reads;
* `Valid done rest`   a check of a script: no variable is got twice, each is read, written to and
                      released only while its elements are lent, and released by its own array;
* `run_sync`          borrowers with valid scripts have each its own loans, until they free them;
* `step_isSome_iff`   such a borrower can go on, unless it reads or writes behind the last element;
* `run_arrays`        where no script writes, and nobody else does to an array of which a copy is
                      lent, the arrays are what was written;
* `run_instant`       where no script writes, and nobody else does to an array that is lent, what a
                      borrower has read stood in the arrays at one instant.
-/

namespace Lending
open Run

structure Loan (α : Type*) where
  array : Nat
  copy : Option (List α)
  live : Bool
  deriving DecidableEq

structure Lender (α : Type*) where
  arrays : List (List α)
  loans : List (Loan α)
  deriving DecidableEq

/-- what a release does: write a copy back and free the elements, only the one, or only the other -/
inductive Mode where
  | copyBack
  | commit
  | abort
  deriving DecidableEq, Repr

def Mode.frees : Mode → Bool
  | .commit => false
  | _ => true

/-- as many elements as `ys` has room for -/
def overlay {α : Type*} (xs ys : List α) : List α := xs.take ys.length ++ ys.drop xs.length

@[simp] theorem length_overlay {α : Type*} (xs ys : List α) :
    (overlay xs ys).length = ys.length := by
  simp [overlay]
  omega

@[simp] theorem overlay_self {α : Type*} (xs : List α) : overlay xs xs = xs := by
  simp [overlay]

namespace Lender
variable {α : Type*}

def get (l : Lender α) (a : Nat) (isCopy : Bool) : Option (Lender α) :=
  (l.arrays[a]?).map fun xs =>
    { l with loans := l.loans ++ [⟨a, if isCopy then some xs else none, true⟩] }

/-- what stands at the pointer `p`; nothing may be read there once it is freed -/
def elements (l : Lender α) (p : Nat) : Option (List α) :=
  (l.loans[p]?).bind fun loan =>
    if loan.live then loan.copy.or l.arrays[loan.array]? else none

/-- an element is written at the pointer `p` -/
def store (l : Lender α) (p i : Nat) (x : α) : Option (Lender α) := do
  let loan ← l.loans[p]?
  let xs ← l.elements p
  if i < xs.length then
    match loan.copy with
    | none => return { l with arrays := l.arrays.set loan.array (xs.set i x) }
    | some _ => return { l with loans := l.loans.set p { loan with copy := some (xs.set i x) } }
  else none

/-- a release of the pointer `p`, with the array `a` named -/
def release (l : Lender α) (p a : Nat) (mode : Mode) : Option (Lender α) :=
  (l.loans[p]?).bind fun loan =>
    if loan.live then
      some ⟨if mode = .abort then l.arrays
        else loan.copy.elim l.arrays fun xs => l.arrays.modify a (overlay xs),
        l.loans.set p { loan with live := !mode.frees }⟩
    else none

def write (l : Lender α) (a i : Nat) (x : α) : Lender α :=
  { l with arrays := l.arrays.modify a fun xs => xs.set i x }

/-! ## the sizes -/

def sizes (l : Lender α) : List Nat := l.arrays.map List.length

theorem length_of_sizes {l l' : Lender α} (h : l'.sizes = l.sizes) :
    l'.arrays.length = l.arrays.length := by
  have hlen := congrArg List.length h
  rwa [sizes, sizes, List.length_map, List.length_map] at hlen

theorem sizes_of_getElem? {l : Lender α} {a : Nat} {xs : List α} (h : l.arrays[a]? = some xs) :
    l.sizes[a]? = some xs.length := by
  rw [sizes, List.getElem?_map, h]
  rfl

theorem map_length_modify (arrays : List (List α)) (a : Nat) {f : List α → List α}
    (hf : ∀ xs, (f xs).length = xs.length) :
    (arrays.modify a f).map List.length = arrays.map List.length := by
  refine List.ext_getElem? fun k => ?_
  rw [List.getElem?_map, List.getElem?_map, List.getElem?_modify]
  cases arrays[k]? with
  | none => rfl
  | some xs => by_cases h : a = k <;> simp [h, hf]

/-- the arrays that are lent exist, and the copies have their sizes -/
def Sized (l : Lender α) : Prop :=
  ∀ loan ∈ l.loans, ∃ n, l.sizes[loan.array]? = some n ∧ ∀ xs, loan.copy = some xs → xs.length = n

theorem Sized.elements {l : Lender α} (h : l.Sized) {p : Nat} {loan : Loan α}
    (hloan : l.loans[p]? = some loan) (hlive : loan.live = true) :
    ∃ xs, l.elements p = some xs ∧ l.sizes[loan.array]? = some xs.length := by
  obtain ⟨n, hn, hcopy⟩ := h loan (List.mem_of_getElem? hloan)
  unfold Lender.elements
  rw [hloan, Option.bind_some, if_pos hlive]
  cases hc : loan.copy with
  | some xs => exact ⟨xs, rfl, hn.trans (congrArg some (hcopy xs hc).symm)⟩
  | none =>
    rw [sizes, List.getElem?_map] at hn
    obtain ⟨xs, hxs, hlen⟩ := Option.map_eq_some_iff.mp hn
    refine ⟨xs, hxs, ?_⟩
    rw [sizes, List.getElem?_map, hxs]
    rfl

/-- a change of arrays that keeps their sizes -/
theorem Sized.arrays {l : Lender α} (h : l.Sized) {arrays : List (List α)}
    (hsizes : arrays.map List.length = l.sizes) : Sized { l with arrays := arrays } := by
  intro loan hmem
  obtain ⟨n, hn, hcopy⟩ := h loan hmem
  exact ⟨n, (congrArg (·[loan.array]?) hsizes).trans hn, hcopy⟩

section
variable {l l' : Lender α} {a i p : Nat} {x : α} {isCopy : Bool} {xs : List α} {mode : Mode}

theorem get_cases (h : l.get a isCopy = some l') : ∃ xs, l.arrays[a]? = some xs ∧
    l' = ⟨l.arrays, l.loans ++ [⟨a, if isCopy then some xs else none, true⟩]⟩ := by
  obtain ⟨xs, hxs, rfl⟩ := Option.map_eq_some_iff.mp h
  exact ⟨xs, hxs, rfl⟩

theorem release_cases (h : l.release p a mode = some l') : ∃ loan, l.loans[p]? = some loan ∧
    loan.live = true ∧ l' = ⟨if mode = .abort then l.arrays
      else loan.copy.elim l.arrays fun xs => l.arrays.modify a (overlay xs),
      l.loans.set p { loan with live := !mode.frees }⟩ := by
  obtain ⟨loan, hloan, h⟩ := Option.bind_eq_some_iff.mp h
  obtain ⟨hlive, h⟩ := Option.ite_none_right_eq_some.mp h
  exact ⟨loan, hloan, hlive, (Option.some.inj h).symm⟩

/-- an element of the array, or of the copy -/
theorem store_cases (h : l.store p i x = some l') : ∃ loan xs, l.loans[p]? = some loan ∧
    l.elements p = some xs ∧ i < xs.length ∧
    (loan.copy = none ∧ l' = ⟨l.arrays.set loan.array (xs.set i x), l.loans⟩ ∨
      ∃ ys, loan.copy = some ys ∧
        l' = ⟨l.arrays, l.loans.set p { loan with copy := some (xs.set i x) }⟩) := by
  obtain ⟨loan, hloan, h⟩ := Option.bind_eq_some_iff.mp h
  obtain ⟨xs, hxs, h⟩ := Option.bind_eq_some_iff.mp h
  obtain ⟨hi, h⟩ := Option.ite_none_right_eq_some.mp h
  refine ⟨loan, xs, hloan, hxs, hi, ?_⟩
  cases hc : loan.copy with
  | none =>
    rw [hc] at h
    exact Or.inl ⟨rfl, (Option.some.inj h).symm⟩
  | some ys =>
    rw [hc] at h
    exact Or.inr ⟨ys, rfl, (Option.some.inj h).symm⟩

theorem sizes_release (h : l.release p a mode = some l') : l'.sizes = l.sizes := by
  obtain ⟨loan, _, _, rfl⟩ := release_cases h
  unfold sizes
  dsimp only
  split_ifs with habort
  · rfl
  · cases loan.copy with
    | none => rfl
    | some xs => exact map_length_modify _ _ fun ys => length_overlay xs ys

theorem sizes_store (hl : l.Sized) (h : l.store p i x = some l') : l'.sizes = l.sizes := by
  obtain ⟨loan, xs, hloan, hxs, _, ⟨_, rfl⟩ | ⟨_, _, rfl⟩⟩ := store_cases h
  · have hlive : loan.live = true := by
      unfold Lender.elements at hxs
      rw [hloan, Option.bind_some] at hxs
      exact (Option.ite_none_right_eq_some.mp hxs).1
    obtain ⟨ys, hys, hsize⟩ := hl.elements hloan hlive
    cases hxs.symm.trans hys
    have hset : l.sizes.set loan.array (xs.set i x).length = l.sizes := by
      obtain ⟨hlt, hget⟩ := List.getElem?_eq_some_iff.mp hsize
      rw [List.length_set, ← hget]
      exact List.set_getElem_self hlt
    show (l.arrays.set loan.array (xs.set i x)).map List.length = l.sizes
    rw [List.map_set]
    exact hset
  · rfl

theorem sizes_write : (l.write a i x).sizes = l.sizes :=
  map_length_modify _ _ fun _ => List.length_set

theorem Sized.get (hl : l.Sized) (h : l.get a isCopy = some l') : l'.Sized := by
  obtain ⟨xs, hxs, rfl⟩ := get_cases h
  intro loan hmem
  rcases List.mem_append.mp hmem with hmem | hmem
  · exact hl loan hmem
  · obtain rfl := List.mem_singleton.mp hmem
    refine ⟨xs.length, sizes_of_getElem? hxs, fun ys hys => ?_⟩
    cases isCopy <;> cases hys
    rfl

theorem Sized.release (hl : l.Sized) (h : l.release p a mode = some l') : l'.Sized := by
  have hsizes := sizes_release h
  obtain ⟨loan, hloan, _, rfl⟩ := release_cases h
  intro other hmem
  rw [hsizes]
  rcases List.mem_or_eq_of_mem_set hmem with hmem | rfl
  · exact hl other hmem
  · exact hl loan (List.mem_of_getElem? hloan)

theorem Sized.store (hl : l.Sized) (h : l.store p i x = some l') : l'.Sized := by
  have hsizes := sizes_store hl h
  obtain ⟨loan, xs, hloan, hxs, _, ⟨_, rfl⟩ | ⟨ys, hys, rfl⟩⟩ := store_cases h
  · exact hl.arrays hsizes
  · intro other hmem
    rcases List.mem_or_eq_of_mem_set hmem with hmem | rfl
    · exact hl other hmem
    · obtain ⟨n, hn, hcopy⟩ := hl loan (List.mem_of_getElem? hloan)
      refine ⟨n, hn, fun zs hzs => ?_⟩
      have hxy : xs = ys := by
        unfold Lender.elements at hxs
        rw [hloan, Option.bind_some, hys, Option.some_or] at hxs
        exact (Option.some.inj (Option.ite_none_right_eq_some.mp hxs).2).symm
      cases hzs
      rw [List.length_set, hxy]
      exact hcopy ys hys

theorem Sized.write (hl : l.Sized) : (l.write a i x).Sized := hl.arrays sizes_write

theorem Sized.alloc (hl : l.Sized) (xs : List α) :
    Sized { l with arrays := l.arrays ++ [xs] } := by
  intro loan hmem
  obtain ⟨n, hn, hcopy⟩ := hl loan hmem
  refine ⟨n, ?_, hcopy⟩
  show ((l.arrays ++ [xs]).map List.length)[loan.array]? = some n
  rw [List.map_append]
  exact (List.getElem?_append_left (List.getElem?_eq_some_iff.mp hn).1).trans hn

end

/-! ## copies -/

def Lent (l : Lender α) (a : Nat) : Prop := ∃ loan ∈ l.loans, loan.live = true ∧ loan.array = a

def LentCopy (l : Lender α) (a : Nat) : Prop :=
  ∃ loan ∈ l.loans, loan.live = true ∧ loan.array = a ∧ loan.copy.isSome = true

instance (l : Lender α) (a : Nat) : Decidable (l.Lent a) :=
  inferInstanceAs (Decidable (∃ loan ∈ l.loans, loan.live = true ∧ loan.array = a))

instance (l : Lender α) (a : Nat) : Decidable (l.LentCopy a) :=
  inferInstanceAs (Decidable (∃ loan ∈ l.loans, loan.live = true ∧ loan.array = a ∧
    loan.copy.isSome = true))

theorem LentCopy.lent {l : Lender α} {a : Nat} (h : l.LentCopy a) : l.Lent a := by
  obtain ⟨loan, hmem, hlive, ha, _⟩ := h
  exact ⟨loan, hmem, hlive, ha⟩

/-- the copies that are lent are what their arrays hold -/
def Current (l : Lender α) : Prop :=
  ∀ loan ∈ l.loans, loan.live = true → ∀ xs, loan.copy = some xs → l.arrays[loan.array]? = some xs

section
variable {l l' : Lender α} {a i p : Nat} {x : α} {isCopy : Bool} {mode : Mode}

theorem Current.get (hc : l.Current) (h : l.get a isCopy = some l') : l'.Current := by
  obtain ⟨xs, hxs, rfl⟩ := get_cases h
  intro loan hmem hlive ys hys
  rcases List.mem_append.mp hmem with hmem | hmem
  · exact hc loan hmem hlive ys hys
  · obtain rfl := List.mem_singleton.mp hmem
    cases isCopy with
    | false => cases hys
    | true =>
      cases hys
      exact hxs

/-- a copy that is what its array holds changes nothing when it is written back to it -/
theorem Current.arrays_release (hc : l.Current) {loan : Loan α} (hloan : l.loans[p]? = some loan)
    (ha : loan.array = a) (h : l.release p a mode = some l') : l'.arrays = l.arrays := by
  obtain ⟨loan', hloan', hlive, rfl⟩ := release_cases h
  cases hloan.symm.trans hloan'
  dsimp only
  split_ifs with habort
  · rfl
  cases hcopy : loan.copy with
  | none => rfl
  | some xs =>
    have hxs := hc loan (List.mem_of_getElem? hloan) hlive xs hcopy
    refine List.ext_getElem? fun k => ?_
    show (l.arrays.modify a (overlay xs))[k]? = _
    rw [List.getElem?_modify]
    by_cases hk : a = k
    · rw [← hk, ← ha, hxs]
      simp
    · simp [hk]

theorem Current.release (hc : l.Current) {loan : Loan α} (hloan : l.loans[p]? = some loan)
    (ha : loan.array = a) (h : l.release p a mode = some l') : l'.Current := by
  have harrays := hc.arrays_release hloan ha h
  obtain ⟨loan', hloan', hlive, rfl⟩ := release_cases h
  cases hloan.symm.trans hloan'
  intro other hmem hother xs hxs
  rw [harrays]
  rcases List.mem_or_eq_of_mem_set hmem with hmem | rfl
  · exact hc other hmem hother xs hxs
  · exact hc loan (List.mem_of_getElem? hloan) hlive xs hxs

theorem Current.write (hc : l.Current) (h : ¬ l.LentCopy a) : (l.write a i x).Current := by
  intro loan hmem hlive xs hxs
  have hne : a ≠ loan.array := fun e => h ⟨loan, hmem, hlive, e.symm, by rw [hxs]; rfl⟩
  show (l.arrays.modify a _)[loan.array]? = some xs
  rw [List.getElem?_modify, hc loan hmem hlive xs hxs]
  simp [hne]

theorem elements_current (hc : l.Current) {loan : Loan α} (hloan : l.loans[p]? = some loan)
    (hlive : loan.live = true) : l.elements p = l.arrays[loan.array]? := by
  unfold elements
  rw [hloan, Option.bind_some, if_pos hlive]
  cases hcopy : loan.copy with
  | none => rfl
  | some xs =>
    rw [Option.some_or]
    exact (hc loan (List.mem_of_getElem? hloan) hlive xs hcopy).symm

end

end Lender

/-! ## borrowers -/

/-- how many elements a statement reads: as many as there are, or the first `n` -/
inductive Extent where
  | all
  | first (n : Nat)
  deriving DecidableEq, Repr

def Extent.Fits (size : Nat) : Extent → Prop
  | .all => True
  | .first n => n ≤ size

instance (size : Nat) : ∀ e : Extent, Decidable (e.Fits size)
  | .all => isTrue trivial
  | .first n => inferInstanceAs (Decidable (n ≤ size))

/-- what is read of `xs`; there is nothing behind the last element -/
def Extent.of {α : Type*} (xs : List α) : Extent → Option (List α)
  | .all => some xs
  | .first n => if n ≤ xs.length then some (xs.take n) else none

inductive Stmt (α Var : Type*) where
  | get (x : Var)
  | read (x : Var) (e : Extent)
  | write (x : Var) (i : Nat) (y : α)
  /-- the elements of `x`, with the array of `a` named -/
  | release (x a : Var) (mode : Mode)
  /-- a release of no elements at all, with the array of `a` named -/
  | releaseNull (a : Var)
  deriving DecidableEq

structure Borrower (α Var : Type*) where
  array : Var → Nat
  done : List (Stmt α Var)
  rest : List (Stmt α Var)
  ptr : Var → Option Nat
  seen : Var → Option (List α)

structure State (α Var : Type*) where
  lender : Lender α
  borrowers : List (Borrower α Var)

inductive Act (α Var : Type*) where
  | alloc (xs : List α)
  | write (a i : Nat) (x : α)
  | enter (array : Var → Nat) (script : List (Stmt α Var))
  /-- the borrower `k` goes on; the lender chooses between a pointer and a copy -/
  | run (k : Nat) (isCopy : Bool)

section
variable {α Var : Type*}

def Borrower.exec [DecidableEq Var] (l : Lender α) (b : Borrower α Var) (isCopy : Bool) :
    Stmt α Var → Option (Lender α × Borrower α Var)
  | .get x => (l.get (b.array x) isCopy).map fun l' =>
    (l', { b with ptr := Function.update b.ptr x (some l.loans.length) })
  | .read x e => (((b.ptr x).bind l.elements).bind e.of).map fun xs =>
    (l, { b with seen := Function.update b.seen x (some xs) })
  | .write x i y => ((b.ptr x).bind fun p => l.store p i y).map fun l' => (l', b)
  | .release x a mode =>
    ((b.ptr x).bind fun p => l.release p (b.array a) mode).map fun l' => (l', b)
  | .releaseNull _ => some (l, b)

def Borrower.after (b : Borrower α Var) (st : Stmt α Var) (rest : List (Stmt α Var)) :
    Borrower α Var := { b with done := b.done ++ [st], rest := rest }

def Borrower.next [DecidableEq Var] (l : Lender α) (b : Borrower α Var) (isCopy : Bool) :
    Option (Lender α × Borrower α Var) :=
  match b.rest with
  | [] => none
  | st :: rest => (b.exec l isCopy st).map fun r => (r.1, r.2.after st rest)

def Stmt.got : Stmt α Var → Option Var
  | .get x => some x
  | _ => none

def Stmt.freed : Stmt α Var → Option Var
  | .release x _ mode => if mode.frees then some x else none
  | _ => none

def gets (script : List (Stmt α Var)) : List Var := script.filterMap Stmt.got

def frees (script : List (Stmt α Var)) : List Var := script.filterMap Stmt.freed

@[simp] theorem gets_snoc (script : List (Stmt α Var)) (st : Stmt α Var) :
    gets (script ++ [st]) = gets script ++ st.got.toList := by
  unfold gets
  rw [List.filterMap_append]
  cases h : st.got <;> simp [h]

@[simp] theorem frees_snoc (script : List (Stmt α Var)) (st : Stmt α Var) :
    frees (script ++ [st]) = frees script ++ st.freed.toList := by
  unfold frees
  rw [List.filterMap_append]
  cases h : st.freed <;> simp [h]

/-- got and not freed -/
def Held (done : List (Stmt α Var)) (x : Var) : Prop := x ∈ gets done ∧ x ∉ frees done

instance [DecidableEq Var] (done : List (Stmt α Var)) (x : Var) : Decidable (Held done x) :=
  inferInstanceAs (Decidable (_ ∧ _))

/-- no variable is got twice; each is read, written to and released while it is lent, and by the
array it was got of -/
def Allowed (done : List (Stmt α Var)) : Stmt α Var → Prop
  | .get x => x ∉ gets done
  | .read x _ => Held done x
  | .write x _ _ => Held done x
  | .release x a _ => Held done x ∧ a = x
  | .releaseNull _ => True

instance [DecidableEq Var] (done : List (Stmt α Var)) : ∀ s, Decidable (Allowed done s)
  | .get x => inferInstanceAs (Decidable (x ∉ gets done))
  | .read x _ => inferInstanceAs (Decidable (Held done x))
  | .write x _ _ => inferInstanceAs (Decidable (Held done x))
  | .release x a _ => inferInstanceAs (Decidable (Held done x ∧ a = x))
  | .releaseNull _ => isTrue trivial

def Valid : List (Stmt α Var) → List (Stmt α Var) → Prop
  | _, [] => True
  | done, s :: rest => Allowed done s ∧ Valid (done ++ [s]) rest

instance Valid.decidable [DecidableEq Var] :
    ∀ done rest : List (Stmt α Var), Decidable (Valid done rest)
  | _, [] => isTrue trivial
  | done, s :: rest =>
    have : Decidable (Valid (done ++ [s]) rest) := Valid.decidable (done ++ [s]) rest
    inferInstanceAs (Decidable (Allowed done s ∧ Valid (done ++ [s]) rest))

/-- the arrays that a script gets are there -/
def InRange (l : Lender α) (array : Var → Nat) (script : List (Stmt α Var)) : Prop :=
  ∀ x ∈ gets script, array x < l.arrays.length

instance (l : Lender α) (array : Var → Nat) (script : List (Stmt α Var)) :
    Decidable (InRange l array script) :=
  inferInstanceAs (Decidable (∀ x ∈ gets script, array x < l.arrays.length))

def step [DecidableEq Var] (s : State α Var) : Act α Var → Option (State α Var)
  | .alloc xs => some { s with lender := { s.lender with arrays := s.lender.arrays ++ [xs] } }
  | .write a i x => some { s with lender := s.lender.write a i x }
  | .enter array script =>
    if InRange s.lender array script then
      some { s with
        borrowers := s.borrowers ++ [⟨array, [], script, fun _ => none, fun _ => none⟩] }
    else none
  | .run k isCopy => do
    let b ← s.borrowers[k]?
    let r ← b.next s.lender isCopy
    return ⟨r.1, s.borrowers.set k r.2⟩

/-! ## each borrower has its own loans -/

/-- what a borrower with a valid script has of the lender -/
structure Holds (l : Lender α) (b : Borrower α Var) : Prop where
  valid : Valid b.done b.rest
  inRange : InRange l b.array b.rest
  got : ∀ x, x ∈ gets b.done ↔ b.ptr x ≠ none
  order : ∀ x ∈ frees b.done, x ∈ gets b.done
  read : ∀ x e, Stmt.read x e ∈ b.done → b.seen x ≠ none
  loan : ∀ x p, b.ptr x = some p → ∃ loan, l.loans[p]? = some loan ∧ loan.array = b.array x ∧
    (loan.live = true ↔ x ∉ frees b.done)
  inj : ∀ x y p, b.ptr x = some p → b.ptr y = some p → x = y

/-- a step of another borrower, or a write -/
theorem Holds.mono {l l' : Lender α} {b : Borrower α Var} (h : Holds l b)
    (hlen : l.arrays.length ≤ l'.arrays.length)
    (hloans : ∀ x p, b.ptr x = some p → l'.loans[p]? = l.loans[p]?) : Holds l' b where
  valid := h.valid
  inRange x hx := (h.inRange x hx).trans_le hlen
  got := h.got
  order := h.order
  read := h.read
  loan x p hp := by
    obtain ⟨loan, hloan, harray, hlive⟩ := h.loan x p hp
    exact ⟨loan, (hloans x p hp).trans hloan, harray, hlive⟩
  inj := h.inj

/-- the borrowers hold what they have got, and no two of them the same loan -/
structure Sync (s : State α Var) : Prop where
  holds : ∀ b ∈ s.borrowers, Holds s.lender b
  disjoint : ∀ (j k : Nat) (b c : Borrower α Var), s.borrowers[j]? = some b →
    s.borrowers[k]? = some c → j ≠ k → ∀ x y p, b.ptr x = some p → c.ptr y ≠ some p
  owned : ∀ p < s.lender.loans.length, ∃ b ∈ s.borrowers, ∃ x, b.ptr x = some p
  sized : s.lender.Sized

/-- a step of one borrower keeps what the others hold, when it changes no loan but its own -/
theorem Sync.set {s : State α Var} {l' : Lender α} {k : Nat} {b b' : Borrower α Var} (h : Sync s)
    (hb : s.borrowers[k]? = some b) (hb' : Holds l' b') (hsized : l'.Sized)
    (hlen : s.lender.arrays.length ≤ l'.arrays.length)
    (hothers : ∀ p < s.lender.loans.length, (∀ x, b.ptr x ≠ some p) →
      l'.loans[p]? = s.lender.loans[p]?)
    (hptr : ∀ x p, b'.ptr x = some p → b.ptr x = some p ∨ p = s.lender.loans.length)
    (hkept : ∀ x p, b.ptr x = some p → b'.ptr x = some p)
    (hnew : ∀ p < l'.loans.length, p < s.lender.loans.length ∨ ∃ x, b'.ptr x = some p) :
    Sync ⟨l', s.borrowers.set k b'⟩ := by
  have hlt : k < s.borrowers.length := (List.getElem?_eq_some_iff.mp hb).1
  have hbelow : ∀ c ∈ s.borrowers, ∀ x p, c.ptr x = some p → p < s.lender.loans.length := by
    intro c hc x p hp
    obtain ⟨loan, hloan, _⟩ := (h.holds c hc).loan x p hp
    exact (List.getElem?_eq_some_iff.mp hloan).1
  have hapart : ∀ j c, s.borrowers[j]? = some c → j ≠ k → ∀ x y p, c.ptr x = some p →
      b'.ptr y ≠ some p := by
    intro j c hc hjk x y p hp hp'
    rcases hptr y p hp' with hold | rfl
    · exact h.disjoint j k c b hc hb hjk x y p hp hold
    · exact absurd (hbelow c (List.mem_of_getElem? hc) x _ hp) (lt_irrefl _)
  refine ⟨fun c hc => ?_, fun i j c d hc hd hij x y p hp hp' => ?_, fun p hp => ?_, hsized⟩
  · obtain ⟨j, hj⟩ := List.getElem?_of_mem hc
    rw [List.getElem?_set] at hj
    split_ifs at hj with hjk
    · exact Option.some.inj hj ▸ hb'
    · have hmem := List.mem_of_getElem? hj
      refine (h.holds c hmem).mono hlen fun x p hp => ?_
      refine hothers p (hbelow c hmem x p hp) fun y hy => ?_
      exact h.disjoint j k c b hj hb (fun e => hjk e.symm) x y p hp hy
  · rw [List.getElem?_set] at hc hd
    split_ifs at hc hd with hik hjk hjk
    · exact hij (hik.symm.trans hjk)
    · cases hc
      exact hapart j d hd (fun e => hjk e.symm) y x p hp' hp
    · cases hd
      exact hapart i c hc (fun e => hik e.symm) x y p hp hp'
    · exact h.disjoint i j c d hc hd hij x y p hp hp'
  · rcases hnew p hp with hold | ⟨x, hx⟩
    · obtain ⟨c, hc, x, hx⟩ := h.owned p hold
      obtain ⟨j, hj⟩ := List.getElem?_of_mem hc
      by_cases hjk : k = j
      · subst hjk
        rw [hb] at hj
        cases hj
        exact ⟨b', List.mem_of_getElem? (List.getElem?_set_self hlt), x, hkept x p hx⟩
      · exact ⟨c, List.mem_of_getElem? ((List.getElem?_set_ne hjk).trans hj), x, hx⟩
    · exact ⟨b', List.mem_of_getElem? (List.getElem?_set_self hlt), x, hx⟩

/-- a step that changes no loan but those of the borrower, and makes none -/
theorem Sync.own {s : State α Var} {l' : Lender α} {k : Nat} {b b' : Borrower α Var} (h : Sync s)
    (hb : s.borrowers[k]? = some b) (hb' : Holds l' b') (hsized : l'.Sized)
    (hptr : b'.ptr = b.ptr) (hsizes : l'.sizes = s.lender.sizes)
    (hlen : l'.loans.length = s.lender.loans.length)
    (hothers : ∀ p, (∀ x, b.ptr x ≠ some p) → l'.loans[p]? = s.lender.loans[p]?) :
    Sync ⟨l', s.borrowers.set k b'⟩ := by
  exact h.set hb hb' hsized (Lender.length_of_sizes hsizes).ge (fun p _ hp => hothers p hp)
    (fun x p hp => Or.inl (hptr ▸ hp)) (fun x p hp => hptr.symm ▸ hp) fun p hp => Or.inl (hlen ▸ hp)

theorem InRange.tail {l : Lender α} {array : Var → Nat} {st : Stmt α Var}
    {rest : List (Stmt α Var)} (h : InRange l array (st :: rest)) : InRange l array rest := by
  intro x hx
  obtain ⟨st', hst', hx⟩ := List.mem_filterMap.mp hx
  exact h x (List.mem_filterMap.mpr ⟨st', List.mem_cons_of_mem st hst', hx⟩)

/-- a statement that neither gets nor frees; the loans stay lent as they are -/
theorem Holds.pass {l l' : Lender α} {b : Borrower α Var} {st : Stmt α Var}
    {rest : List (Stmt α Var)} (h : Holds l b) (hrest : b.rest = st :: rest) (hgot : st.got = none)
    (hfreed : st.freed = none) (hlen : l.arrays.length ≤ l'.arrays.length)
    (hloans : ∀ (p : Nat) (loan : Loan α), l.loans[p]? = some loan → ∃ loan' : Loan α,
      l'.loans[p]? = some loan' ∧ loan'.array = loan.array ∧ loan'.live = loan.live)
    (seen : Var → Option (List α)) (hseen : ∀ x e, Stmt.read x e ∈ b.done ++ [st] → seen x ≠ none) :
    Holds l' ({ b with seen := seen }.after st rest) := by
  have hv := h.valid
  have hr := h.inRange
  rw [hrest] at hv hr
  have hgets : gets (b.done ++ [st]) = gets b.done := by simp [hgot]
  have hfrees : frees (b.done ++ [st]) = frees b.done := by simp [hfreed]
  refine ⟨hv.2, fun x hx => (hr.tail x hx).trans_le hlen, fun x => ?_, fun x hx => ?_, hseen,
    fun x p hp => ?_, h.inj⟩
  · show x ∈ gets (b.done ++ [st]) ↔ b.ptr x ≠ none
    rw [hgets]
    exact h.got x
  · show x ∈ gets (b.done ++ [st])
    rw [hgets]
    exact h.order x (hfrees ▸ hx)
  · obtain ⟨loan, hloan, harray, hlive⟩ := h.loan x p hp
    obtain ⟨loan', hloan', harray', hlive'⟩ := hloans p loan hloan
    refine ⟨loan', hloan', harray'.trans harray, ?_⟩
    show loan'.live = true ↔ x ∉ frees (b.done ++ [st])
    rw [hlive', hfrees]
    exact hlive

/-- after a release that frees its `x` -/
theorem Holds.release {l l' : Lender α} {b : Borrower α Var} {x a : Var} {mode : Mode} {p : Nat}
    {rest : List (Stmt α Var)} (h : Holds l b) (hrest : b.rest = .release x a mode :: rest)
    (hfrees : mode.frees = true) (hp : b.ptr x = some p)
    (hl : l.release p (b.array a) mode = some l') :
    Holds l' (b.after (.release x a mode) rest) := by
  have hlen := Lender.length_of_sizes (Lender.sizes_release hl)
  obtain ⟨loan, hloan, hlive, rfl⟩ := Lender.release_cases hl
  have hv := h.valid
  have hr := h.inRange
  rw [hrest] at hv hr
  have hplt : p < l.loans.length := (List.getElem?_eq_some_iff.mp hloan).1
  have hgets : gets (b.done ++ [.release x a mode]) = gets b.done := by simp [Stmt.got]
  have hfreed : frees (b.done ++ [.release x a mode]) = frees b.done ++ [x] := by
    simp [Stmt.freed, hfrees]
  refine ⟨hv.2, fun y hy => hlen.symm ▸ hr.tail y hy, fun y => ?_, fun y hy => ?_,
    fun y e hy => h.read y e (by simpa [Borrower.after] using hy), fun y q hq => ?_, h.inj⟩
  · show y ∈ gets (b.done ++ [.release x a mode]) ↔ b.ptr y ≠ none
    rw [hgets]
    exact h.got y
  · show y ∈ gets (b.done ++ [.release x a mode])
    rw [hgets]
    have hy : y ∈ frees (b.done ++ [.release x a mode]) := hy
    rw [hfreed] at hy
    rcases List.mem_append.mp hy with hy | hy
    · exact h.order y hy
    · exact List.mem_singleton.mp hy ▸ hv.1.1.1
  · obtain ⟨other, hother, harray, hlive'⟩ := h.loan y q hq
    show ∃ loan', _ ∧ _ ∧ (_ ↔ y ∉ frees (b.done ++ [.release x a mode]))
    rw [hfreed]
    by_cases hyx : y = x
    · subst hyx
      cases hp.symm.trans hq
      cases hloan.symm.trans hother
      refine ⟨_, List.getElem?_set_self hplt, harray, ?_⟩
      simp [hfrees]
    · have hne : p ≠ q := fun e => hyx (h.inj y x p (e ▸ hq) hp)
      refine ⟨other, (List.getElem?_set_ne hne).trans hother, harray,
        hlive'.trans (not_congr ?_)⟩
      simp [hyx]

/-- a borrower that holds the elements of `x` has a live loan of its array -/
theorem Holds.live {l : Lender α} {b : Borrower α Var} {x : Var} (h : Holds l b)
    (hx : Held b.done x) : ∃ p loan, b.ptr x = some p ∧ l.loans[p]? = some loan ∧
      loan.live = true ∧ loan.array = b.array x := by
  obtain ⟨p, hp⟩ := Option.ne_none_iff_exists'.mp ((h.got x).mp hx.1)
  obtain ⟨loan, hloan, harray, hlive⟩ := h.loan x p hp
  exact ⟨p, loan, hp, hloan, hlive.mpr hx.2, harray⟩

/-- what was read before the statement `st` has been seen -/
theorem Holds.seen_of_read {l : Lender α} {b : Borrower α Var} {st : Stmt α Var} (h : Holds l b)
    {y : Var} {e : Extent} (hy : Stmt.read y e ∈ b.done ++ [st]) (hne : ∀ e', st ≠ .read y e') :
    b.seen y ≠ none := by
  rcases List.mem_append.mp hy with hy | hy
  · exact h.read y e hy
  · exact absurd (List.mem_singleton.mp hy).symm (hne e)

/-- one loan changed, but neither its array nor whether it is live -/
theorem loans_set {loans : List (Loan α)} {p : Nat} {loan loan' : Loan α}
    (hloan : loans[p]? = some loan) (harray : loan'.array = loan.array)
    (hlive : loan'.live = loan.live) (q : Nat) (other : Loan α) (hq : loans[q]? = some other) :
    ∃ other', (loans.set p loan')[q]? = some other' ∧ other'.array = other.array ∧
      other'.live = other.live := by
  by_cases hpq : p = q
  · subst hpq
    cases hloan.symm.trans hq
    exact ⟨loan', List.getElem?_set_self (List.getElem?_eq_some_iff.mp hloan).1, harray, hlive⟩
  · exact ⟨other, (List.getElem?_set_ne hpq).trans hq, rfl, rfl⟩

section
variable {s : State α Var} {l' : Lender α} {k : Nat} {b : Borrower α Var}
  {rest : List (Stmt α Var)} {x : Var}

/-- the write goes to the array, or to the borrower's own copy -/
theorem Sync.write {i : Nat} {y : α} {p : Nat} (h : Sync s) (hb : s.borrowers[k]? = some b)
    (hrest : b.rest = .write x i y :: rest) (hp : b.ptr x = some p)
    (hl : s.lender.store p i y = some l') :
    Sync ⟨l', s.borrowers.set k (b.after (.write x i y) rest)⟩ := by
  have hholds := h.holds b (List.mem_of_getElem? hb)
  have hsizes := Lender.sizes_store h.sized hl
  have hlen := (Lender.length_of_sizes hsizes).ge
  have hsized := h.sized.store hl
  obtain ⟨loan, xs, hloan, _, _, ⟨_, rfl⟩ | ⟨ys, _, rfl⟩⟩ := Lender.store_cases hl
  · have hh := hholds.pass hrest rfl rfl hlen (fun _ loan hloan => ⟨loan, hloan, rfl, rfl⟩) b.seen
      fun z e hz => hholds.seen_of_read hz nofun
    exact h.own hb hh hsized rfl hsizes rfl fun _ _ => rfl
  · have hh := hholds.pass hrest rfl rfl hlen (loans_set hloan rfl rfl) b.seen
      fun z e hz => hholds.seen_of_read hz nofun
    exact h.own hb hh hsized rfl hsizes List.length_set fun q hq =>
      List.getElem?_set_ne fun e => hq x (hp.trans (congrArg some e))

/-- a release of the borrower's own loan, which may stay lent -/
theorem Sync.release {a : Var} {mode : Mode} {p : Nat} (h : Sync s)
    (hb : s.borrowers[k]? = some b) (hrest : b.rest = .release x a mode :: rest)
    (hp : b.ptr x = some p) (hl : s.lender.release p (b.array a) mode = some l') :
    Sync ⟨l', s.borrowers.set k (b.after (.release x a mode) rest)⟩ := by
  have hholds := h.holds b (List.mem_of_getElem? hb)
  have hsizes := Lender.sizes_release hl
  have hsized := h.sized.release hl
  have hh : Holds l' (b.after (.release x a mode) rest) := by
    cases hfrees : mode.frees with
    | true => exact hholds.release hrest hfrees hp hl
    | false =>
      have hlen := (Lender.length_of_sizes hsizes).ge
      obtain ⟨loan, hloan, hlive, rfl⟩ := Lender.release_cases hl
      exact hholds.pass hrest rfl (by simp [Stmt.freed, hfrees]) hlen
        (loans_set hloan rfl (by simp [hfrees, hlive])) b.seen
        fun z e hz => hholds.seen_of_read hz nofun
  obtain ⟨loan, hloan, _, rfl⟩ := Lender.release_cases hl
  exact h.own hb hh hsized rfl hsizes List.length_set fun q hq =>
    List.getElem?_set_ne fun e => hq x (hp.trans (congrArg some e))

end

/-- **Every loan has one owner**, and is live until its owner frees it. -/
theorem Sync.owner {s : State α Var} (h : Sync s) {p : Nat} {loan : Loan α}
    (hloan : s.lender.loans[p]? = some loan) : ∃ (k : Nat) (b : Borrower α Var) (x : Var),
      s.borrowers[k]? = some b ∧ b.ptr x = some p ∧ (loan.live = true ↔ x ∉ frees b.done) := by
  obtain ⟨b, hb, x, hx⟩ := h.owned p (List.getElem?_eq_some_iff.mp hloan).1
  obtain ⟨k, hk⟩ := List.getElem?_of_mem hb
  obtain ⟨loan', hloan', _, hlive⟩ := (h.holds b hb).loan x p hx
  cases hloan.symm.trans hloan'
  exact ⟨k, b, x, hk, hx, hlive⟩

def init : State α Var := ⟨⟨[], []⟩, []⟩

theorem sync_init : Sync (init : State α Var) where
  holds _ hb := absurd hb List.not_mem_nil
  disjoint _ _ _ _ hb := absurd (List.mem_of_getElem? hb) List.not_mem_nil
  owned _ hp := absurd hp (Nat.not_lt_zero _)
  sized _ hmem := absurd hmem List.not_mem_nil

/-! ## what others do -/

/-- what the writes alone make of the arrays -/
def onArrays (arrays : List (List α)) : Act α Var → List (List α)
  | .alloc xs => arrays ++ [xs]
  | .write a i x => arrays.modify a fun xs => xs.set i x
  | .enter _ _ => arrays
  | .run _ _ => arrays

/-- it does not write to an array with `P` -/
def Act.Spares (P : Nat → Prop) : Act α Var → Prop
  | .write a _ _ => ¬ P a
  | _ => True

instance (P : Nat → Prop) [DecidablePred P] : ∀ a : Act α Var, Decidable (a.Spares P)
  | .write a _ _ => inferInstanceAs (Decidable (¬ P a))
  | .alloc _ => isTrue trivial
  | .enter _ _ => isTrue trivial
  | .run _ _ => isTrue trivial

theorem Act.Spares.mono {P Q : Nat → Prop} {a : Act α Var} (h : a.Spares Q)
    (hPQ : ∀ n, P n → Q n) : a.Spares P := by
  cases a with
  | write n i x => exact fun hp => h (hPQ n hp)
  | _ => trivial

/-! ## what borrowers do -/

def Stmt.isRead : Stmt α Var → Bool
  | .read _ _ => true
  | _ => false

def Stmt.isWrite : Stmt α Var → Bool
  | .write _ _ _ => true
  | _ => false

def ReadOnly (script : List (Stmt α Var)) : Prop := ∀ st ∈ script, st.isWrite = false

instance (script : List (Stmt α Var)) : Decidable (ReadOnly script) :=
  inferInstanceAs (Decidable (∀ st ∈ script, st.isWrite = false))

/-- nothing is read once something has been freed -/
def Gathers (script : List (Stmt α Var)) : Prop :=
  script.Pairwise fun st st' => st.freed.isSome = true → st'.isRead = false

instance (script : List (Stmt α Var)) : Decidable (Gathers script) :=
  inferInstanceAs (Decidable (script.Pairwise _))

/-- the scripts of the borrowers that enter are valid -/
def Act.Checked : Act α Var → Prop
  | .enter _ script => Valid [] script
  | _ => True

def Act.ReadOnly : Act α Var → Prop
  | .enter _ script => Lending.ReadOnly script
  | _ => True

def Act.Gathered : Act α Var → Prop
  | .enter _ script => Gathers script
  | _ => True

/-- the elements that a statement looks at are there -/
def Borrower.Fits (l : Lender α) (b : Borrower α Var) : Stmt α Var → Prop
  | .read x e => ∀ n, l.sizes[b.array x]? = some n → e.Fits n
  | .write x i _ => ∀ n, l.sizes[b.array x]? = some n → i < n
  | _ => True

/-- `ys` is what a statement `read` would see now in the array of `x` -/
def Shows (l : Lender α) (b : Borrower α Var) (x : Var) (ys : List α) : Prop :=
  ∃ e xs, Stmt.read x e ∈ b.done ∧ l.arrays[b.array x]? = some xs ∧ e.of xs = some ys

theorem Shows.mono {l l' : Lender α} {b c : Borrower α Var} {x : Var} {ys : List α}
    (h : Shows l b x ys) (harray : c.array = b.array) (hdone : ∀ st ∈ b.done, st ∈ c.done)
    (hl : ∀ xs, l.arrays[b.array x]? = some xs → l'.arrays[b.array x]? = some xs) :
    Shows l' c x ys := by
  obtain ⟨e, xs, hread, hxs, he⟩ := h
  exact ⟨e, xs, hdone _ hread, harray.symm ▸ hl xs hxs, he⟩

/-- what has been read from an array that is still lent stands there -/
def Reads (s : State α Var) : Prop :=
  ∀ b ∈ s.borrowers, ∀ x ys, b.seen x = some ys → x ∈ gets b.done ∧
    (x ∉ frees b.done → Shows s.lender b x ys)

/-- nobody writes but those who spare the copies that are lent -/
structure Quiet (s : State α Var) : Prop where
  sync : Sync s
  current : s.lender.Current
  readOnly : ∀ b ∈ s.borrowers, ReadOnly b.rest

theorem quiet_init : Quiet (init : State α Var) where
  sync := sync_init
  current _ hmem := absurd hmem List.not_mem_nil
  readOnly _ hb := absurd hb List.not_mem_nil

section
variable [DecidableEq Var]

/-- after its `get` of `x` -/
theorem Holds.get {l l' : Lender α} {b : Borrower α Var} {x : Var} {isCopy : Bool}
    {rest : List (Stmt α Var)} (h : Holds l b) (hrest : b.rest = .get x :: rest)
    (hl : l.get (b.array x) isCopy = some l') :
    Holds l' ({ b with
      ptr := Function.update b.ptr x (some l.loans.length) }.after (.get x) rest) := by
  obtain ⟨xs, hxs, rfl⟩ := Lender.get_cases hl
  have hv := h.valid
  have hr := h.inRange
  rw [hrest] at hv hr
  have hnew : x ∉ gets b.done := hv.1
  have hbelow : ∀ y p, b.ptr y = some p → p < l.loans.length := fun y p hp => by
    obtain ⟨loan, hloan, _⟩ := h.loan y p hp
    exact (List.getElem?_eq_some_iff.mp hloan).1
  have hold : ∀ y p, y ≠ x → Function.update b.ptr x (some l.loans.length) y = some p →
      b.ptr y = some p := fun y p hyx hp => (Function.update_of_ne hyx _ _).symm.trans hp
  have hgets : gets (b.done ++ [.get x]) = gets b.done ++ [x] := gets_snoc _ _
  have hfrees : frees (b.done ++ [.get x]) = frees b.done := by simp [Stmt.freed]
  refine ⟨hv.2, hr.tail, fun y => ?_, fun y hy => ?_,
    fun y e hy => h.read y e (by simpa [Borrower.after] using hy), fun y p hp => ?_,
    fun y z p hy hz => ?_⟩
  · show y ∈ gets (b.done ++ [.get x]) ↔ Function.update b.ptr x _ y ≠ none
    rw [hgets]
    by_cases hyx : y = x
    · simp [hyx]
    · rw [Function.update_of_ne hyx, ← h.got y]
      simp [hyx]
  · show y ∈ gets (b.done ++ [.get x])
    rw [hgets]
    exact List.mem_append_left _ (h.order y (hfrees ▸ hy))
  · show ∃ loan, _ ∧ _ ∧ (_ ↔ y ∉ frees (b.done ++ [.get x]))
    rw [hfrees]
    by_cases hyx : y = x
    · subst hyx
      have hnot : y ∉ frees b.done := fun hmem => hnew (h.order y hmem)
      cases (Function.update_self y _ b.ptr).symm.trans hp
      exact ⟨_, List.getElem?_concat_length, rfl, iff_of_true rfl hnot⟩
    · obtain ⟨loan, hloan, harray, hlive⟩ := h.loan y p (hold y p hyx hp)
      exact ⟨loan, (List.getElem?_append_left (hbelow y p (hold y p hyx hp))).trans hloan, harray,
        hlive⟩
  · by_cases hyx : y = x <;> by_cases hzx : z = x
    · rw [hyx, hzx]
    · subst hyx
      cases (Function.update_self y _ b.ptr).symm.trans hy
      exact absurd (hbelow z _ (hold z _ hzx hz)) (lt_irrefl _)
    · subst hzx
      cases (Function.update_self z _ b.ptr).symm.trans hz
      exact absurd (hbelow y _ (hold y _ hyx hy)) (lt_irrefl _)
    · exact h.inj y z p (hold y p hyx hy) (hold z p hzx hz)

theorem next_cases {l : Lender α} {b : Borrower α Var} {isCopy : Bool}
    {r : Lender α × Borrower α Var} (h : b.next l isCopy = some r) : ∃ st rest r',
    b.rest = st :: rest ∧ b.exec l isCopy st = some r' ∧
      r = (r'.1, r'.2.after st rest) := by
  unfold Borrower.next at h
  cases hrest : b.rest with
  | nil =>
    rw [hrest] at h
    cases h
  | cons st rest =>
    rw [hrest] at h
    obtain ⟨r', hr', rfl⟩ := Option.map_eq_some_iff.mp h
    exact ⟨st, rest, r', rfl, hr', rfl⟩

/-- a borrower keeps its arrays and its script -/
theorem next_script {l : Lender α} {b : Borrower α Var} {isCopy : Bool}
    {r : Lender α × Borrower α Var} (h : b.next l isCopy = some r) :
    r.2.array = b.array ∧ r.2.done ++ r.2.rest = b.done ++ b.rest := by
  obtain ⟨st, rest, r', hrest, hexec, rfl⟩ := next_cases h
  have hkeeps : r'.2.array = b.array ∧ r'.2.done = b.done := by
    cases st with
    | releaseNull a =>
      cases hexec
      exact ⟨rfl, rfl⟩
    | _ =>
      obtain ⟨_, _, rfl⟩ := Option.map_eq_some_iff.mp hexec
      exact ⟨rfl, rfl⟩
  refine ⟨hkeeps.1, ?_⟩
  show (r'.2.done ++ [st]) ++ rest = _
  rw [hkeeps.2, hrest, List.append_assoc]
  rfl

/-- the new loan is the borrower's -/
theorem Sync.get {s : State α Var} {l' : Lender α} {k : Nat} {b : Borrower α Var}
    {rest : List (Stmt α Var)} {x : Var} {isCopy : Bool} (h : Sync s)
    (hb : s.borrowers[k]? = some b) (hrest : b.rest = .get x :: rest)
    (hl : s.lender.get (b.array x) isCopy = some l') :
    Sync ⟨l', s.borrowers.set k ({ b with
      ptr := Function.update b.ptr x (some s.lender.loans.length) }.after (.get x) rest)⟩ := by
  have hholds := h.holds b (List.mem_of_getElem? hb)
  have hh := hholds.get hrest hl
  have hsized := h.sized.get hl
  have hnone : b.ptr x = none := by
    have hv := hholds.valid
    rw [hrest] at hv
    exact not_ne_iff.mp fun hne => hv.1 ((hholds.got x).mpr hne)
  obtain ⟨xs, hxs, rfl⟩ := Lender.get_cases hl
  refine h.set hb hh hsized le_rfl (fun p hp _ => List.getElem?_append_left hp)
    (fun y p hp => ?_) (fun y p hp => ?_) (fun p hp => ?_)
  · by_cases hyx : y = x
    · subst hyx
      cases (Function.update_self y _ b.ptr).symm.trans hp
      exact Or.inr rfl
    · exact Or.inl ((Function.update_of_ne hyx _ b.ptr).symm.trans hp)
  · have hyx : y ≠ x := by
      rintro rfl
      rw [hnone] at hp
      cases hp
    exact (Function.update_of_ne hyx _ b.ptr).trans hp
  · rw [List.length_append, List.length_singleton] at hp
    rcases Nat.lt_succ_iff_lt_or_eq.mp hp with hlt | rfl
    · exact Or.inl hlt
    · exact Or.inr ⟨x, Function.update_self x _ b.ptr⟩

theorem Sync.next {s : State α Var} {k : Nat} {b : Borrower α Var} {isCopy : Bool}
    {r : Lender α × Borrower α Var} (h : Sync s) (hb : s.borrowers[k]? = some b)
    (hr : b.next s.lender isCopy = some r) : Sync ⟨r.1, s.borrowers.set k r.2⟩ := by
  have hholds := h.holds b (List.mem_of_getElem? hb)
  obtain ⟨st, rest, r', hrest, hexec, rfl⟩ := next_cases hr
  cases st with
  | get x =>
    obtain ⟨l', hl', rfl⟩ := Option.map_eq_some_iff.mp hexec
    exact h.get hb hrest hl'
  | read x e =>
    obtain ⟨xs, hxs, rfl⟩ := Option.map_eq_some_iff.mp hexec
    have hh := hholds.pass hrest rfl rfl le_rfl (fun _ loan hloan => ⟨loan, hloan, rfl, rfl⟩)
      (Function.update b.seen x (some xs)) fun y e' hy => by
        by_cases hyx : y = x
        · simp [hyx]
        · rw [Function.update_of_ne hyx]
          exact hholds.seen_of_read hy fun e'' he => hyx (Stmt.read.inj he).1.symm
    exact h.own hb hh h.sized rfl rfl rfl fun _ _ => rfl
  | write x i y =>
    obtain ⟨l', hl', rfl⟩ := Option.map_eq_some_iff.mp hexec
    obtain ⟨p, hp, hstore⟩ := Option.bind_eq_some_iff.mp hl'
    exact h.write hb hrest hp hstore
  | release x a mode =>
    obtain ⟨l', hl', rfl⟩ := Option.map_eq_some_iff.mp hexec
    obtain ⟨p, hp, hrel⟩ := Option.bind_eq_some_iff.mp hl'
    exact h.release hb hrest hp hrel
  | releaseNull a =>
    cases hexec
    have hh := hholds.pass hrest rfl rfl le_rfl (fun _ loan hloan => ⟨loan, hloan, rfl, rfl⟩) b.seen
      fun z e hz => hholds.seen_of_read hz nofun
    exact h.own hb hh h.sized rfl rfl rfl fun _ _ => rfl

theorem Sync.step {s s' : State α Var} {a : Act α Var} (h : Sync s) (ha : a.Checked)
    (hs : step s a = some s') : Sync s' := by
  cases a with
  | alloc xs =>
    cases hs
    refine ⟨fun b hb => (h.holds b hb).mono ?_ fun _ _ _ => rfl, h.disjoint, h.owned,
      h.sized.alloc xs⟩
    simp
  | write a i x =>
    cases hs
    refine ⟨fun b hb => (h.holds b hb).mono ?_ fun _ _ _ => rfl, h.disjoint, h.owned,
      h.sized.write⟩
    simp [Lender.write]
  | enter array script =>
    obtain ⟨hrange, hs⟩ := Option.ite_none_right_eq_some.mp hs
    cases hs
    refine ⟨fun b hb => ?_, fun j k b c hb hc hjk x y p hp hp' => ?_, fun p hp => ?_, h.sized⟩
    · rcases List.mem_append.mp hb with hb | hb
      · exact h.holds b hb
      · cases List.mem_singleton.mp hb
        exact ⟨ha, hrange, by simp [gets], by simp [frees], by simp, by simp, by simp⟩
    · have hold : ∀ (i : Nat) (d : Borrower α Var) z, (s.borrowers ++
          [⟨array, [], script, fun _ => none, fun _ => none⟩])[i]? = some d → d.ptr z = some p →
          s.borrowers[i]? = some d := by
        intro i d z hd hz
        rcases List.mem_append.mp (List.mem_of_getElem? hd) with _ | hmem
        · rw [List.getElem?_append] at hd
          split_ifs at hd
          · exact hd
          · cases List.mem_singleton.mp (List.mem_of_getElem? hd)
            cases hz
        · cases List.mem_singleton.mp hmem
          cases hz
      exact h.disjoint j k b c (hold j b x hb hp) (hold k c y hc hp') hjk x y p hp hp'
    · obtain ⟨b, hb, x, hx⟩ := h.owned p hp
      exact ⟨b, List.mem_append_left _ hb, x, hx⟩
  | run k isCopy =>
    obtain ⟨b, hb, hs⟩ := Option.bind_eq_some_iff.mp hs
    obtain ⟨r, hr, hs⟩ := Option.bind_eq_some_iff.mp hs
    cases hs
    exact h.next hb hr

/-- a borrower that does not write leaves the arrays as they are, and the copies current -/
theorem arrays_next {l : Lender α} {b : Borrower α Var} {isCopy : Bool}
    {r : Lender α × Borrower α Var} (hc : l.Current) (hb : Holds l b) (hno : ReadOnly b.rest)
    (h : b.next l isCopy = some r) : r.1.Current ∧ r.1.arrays = l.arrays := by
  obtain ⟨st, rest, r', hrest, hexec, rfl⟩ := next_cases h
  cases st with
  | get x =>
    obtain ⟨l', hl', rfl⟩ := Option.map_eq_some_iff.mp hexec
    refine ⟨hc.get hl', ?_⟩
    obtain ⟨xs, _, rfl⟩ := Lender.get_cases hl'
    rfl
  | read x e =>
    obtain ⟨xs, _, rfl⟩ := Option.map_eq_some_iff.mp hexec
    exact ⟨hc, rfl⟩
  | write x i y => cases hno _ (hrest ▸ List.mem_cons_self)
  | release x a mode =>
    obtain ⟨l', hl', rfl⟩ := Option.map_eq_some_iff.mp hexec
    obtain ⟨p, hp, hrel⟩ := Option.bind_eq_some_iff.mp hl'
    obtain ⟨loan, hloan, harray, _⟩ := hb.loan x p hp
    have hv := hb.valid
    rw [hrest] at hv
    -- the array that is named is the one that was lent
    have ha : loan.array = b.array a := by
      rw [harray, hv.1.2]
    exact ⟨hc.release hloan ha hrel, hc.arrays_release hloan ha hrel⟩
  | releaseNull a =>
    cases hexec
    exact ⟨hc, rfl⟩

/-- a borrower after a step was there, has just entered, or has gone on -/
theorem step_borrowers {s s' : State α Var} {a : Act α Var} (hs : step s a = some s')
    {c : Borrower α Var} (hc : c ∈ s'.borrowers) : c ∈ s.borrowers ∨
      (∃ array script, a = .enter array script ∧
        c = ⟨array, [], script, fun _ => none, fun _ => none⟩) ∨
      ∃ b ∈ s.borrowers, ∃ isCopy r, b.next s.lender isCopy = some r ∧ c = r.2 := by
  cases a with
  | alloc xs =>
    cases hs
    exact Or.inl hc
  | write n i x =>
    cases hs
    exact Or.inl hc
  | enter array script =>
    obtain ⟨_, hs⟩ := Option.ite_none_right_eq_some.mp hs
    cases hs
    rcases List.mem_append.mp hc with hc | hc
    · exact Or.inl hc
    · exact Or.inr (Or.inl ⟨array, script, rfl, List.mem_singleton.mp hc⟩)
  | run k isCopy =>
    obtain ⟨b, hb, hs⟩ := Option.bind_eq_some_iff.mp hs
    obtain ⟨r, hnext, hs⟩ := Option.bind_eq_some_iff.mp hs
    cases hs
    rcases List.mem_or_eq_of_mem_set hc with hc | rfl
    · exact Or.inl hc
    · exact Or.inr (Or.inr ⟨b, List.mem_of_getElem? hb, isCopy, r, hnext, rfl⟩)

theorem Quiet.step {s s' : State α Var} {a : Act α Var} (h : Quiet s) (ha : a.Checked)
    (hno : a.ReadOnly) (hspares : a.Spares s.lender.LentCopy) (hs : step s a = some s') :
    Quiet s' ∧ s'.lender.arrays = onArrays s.lender.arrays a := by
  have hreadOnly : ∀ c ∈ s'.borrowers, ReadOnly c.rest := by
    intro c hc
    rcases step_borrowers hs hc with hold | ⟨array, script, rfl, rfl⟩ | ⟨b, hb, isCopy, r, hr, rfl⟩
    · exact h.readOnly c hold
    · exact hno
    · obtain ⟨st, rest, _, hrest, _, rfl⟩ := next_cases hr
      exact fun st' hst' => h.readOnly b hb st' (hrest ▸ List.mem_cons_of_mem st hst')
  suffices hcurrent : s'.lender.Current ∧ s'.lender.arrays = onArrays s.lender.arrays a from
    ⟨⟨h.sync.step ha hs, hcurrent.1, hreadOnly⟩, hcurrent.2⟩
  cases a with
  | alloc xs =>
    cases hs
    refine ⟨fun loan hmem hlive ys hys => ?_, rfl⟩
    have hold := h.current loan hmem hlive ys hys
    exact (List.getElem?_append_left (List.getElem?_eq_some_iff.mp hold).1).trans hold
  | write n i x =>
    cases hs
    exact ⟨h.current.write hspares, rfl⟩
  | enter array script =>
    obtain ⟨_, hs⟩ := Option.ite_none_right_eq_some.mp hs
    cases hs
    exact ⟨h.current, rfl⟩
  | run k isCopy =>
    obtain ⟨b, hb, hs⟩ := Option.bind_eq_some_iff.mp hs
    obtain ⟨r, hr, hs⟩ := Option.bind_eq_some_iff.mp hs
    cases hs
    have hmem := List.mem_of_getElem? hb
    exact arrays_next h.current (h.sync.holds b hmem) (h.readOnly b hmem) hr

/-- a step of a borrower: what it has read is kept, or is what the array holds -/
theorem seen_next {l : Lender α} {b : Borrower α Var} {isCopy : Bool}
    {r : Lender α × Borrower α Var} (hc : l.Current) (hb : Holds l b)
    (h : b.next l isCopy = some r) : ∃ st rest, r.2.done = b.done ++ [st] ∧ b.rest = st :: rest ∧
      ∀ x ys, r.2.seen x = some ys → b.seen x = some ys ∨
        ∃ e xs, st = .read x e ∧ x ∈ gets b.done ∧ l.arrays[b.array x]? = some xs ∧
          e.of xs = some ys := by
  obtain ⟨st, rest, r', hrest, hexec, rfl⟩ := next_cases h
  cases st with
  | read x e =>
    obtain ⟨ys, hys, rfl⟩ := Option.map_eq_some_iff.mp hexec
    have hv := hb.valid
    rw [hrest] at hv
    refine ⟨_, _, rfl, hrest, fun y zs hy => ?_⟩
    by_cases hyx : y = x
    · subst hyx
      cases (Function.update_self y _ b.seen).symm.trans hy
      obtain ⟨p, loan, hp, hloan, hlive, harray⟩ := hb.live hv.1
      obtain ⟨xs, hxs, he⟩ := Option.bind_eq_some_iff.mp hys
      rw [hp, Option.bind_some, Lender.elements_current hc hloan hlive, harray] at hxs
      exact Or.inr ⟨e, xs, rfl, hv.1.1, hxs, he⟩
    · exact Or.inl ((Function.update_of_ne hyx _ b.seen).symm.trans hy)
  | releaseNull a =>
    cases hexec
    exact ⟨_, _, rfl, hrest, fun y ys hy => Or.inl hy⟩
  | _ =>
    obtain ⟨_, _, rfl⟩ := Option.map_eq_some_iff.mp hexec
    exact ⟨_, _, rfl, hrest, fun y ys hy => Or.inl hy⟩

theorem Reads.step {s s' : State α Var} {a : Act α Var} (hr : Reads s) (h : Quiet s)
    (ha : a.Spares s.lender.Lent) (hs : step s a = some s') : Reads s' := by
  cases a with
  | alloc xs =>
    cases hs
    intro b hb x ys hx
    obtain ⟨hget, hread⟩ := hr b hb x ys hx
    exact ⟨hget, fun hrel => (hread hrel).mono rfl (fun _ => id) fun zs hzs =>
      (List.getElem?_append_left (List.getElem?_eq_some_iff.mp hzs).1).trans hzs⟩
  | write n i y =>
    cases hs
    intro b hb x ys hx
    obtain ⟨hget, hread⟩ := hr b hb x ys hx
    refine ⟨hget, fun hrel => (hread hrel).mono rfl (fun _ => id) fun zs hzs => ?_⟩
    obtain ⟨p, loan, _, hloan, hlive, harray⟩ := (h.sync.holds b hb).live ⟨hget, hrel⟩
    have hne : n ≠ b.array x :=
      fun e => ha ⟨loan, List.mem_of_getElem? hloan, hlive, harray.trans e.symm⟩
    show (s.lender.arrays.modify n _)[b.array x]? = some zs
    rw [List.getElem?_modify, hzs]
    simp [hne]
  | enter array script =>
    obtain ⟨_, hs⟩ := Option.ite_none_right_eq_some.mp hs
    cases hs
    intro b hb x ys hx
    rcases List.mem_append.mp hb with hb | hb
    · exact hr b hb x ys hx
    · cases List.mem_singleton.mp hb
      cases hx
  | run k isCopy =>
    obtain ⟨b, hb, hs⟩ := Option.bind_eq_some_iff.mp hs
    obtain ⟨r, hnext, hs⟩ := Option.bind_eq_some_iff.mp hs
    cases hs
    have hmem := List.mem_of_getElem? hb
    have harrays := (arrays_next h.current (h.sync.holds b hmem) (h.readOnly b hmem) hnext).2
    obtain ⟨st, _, hdone, _, hseen⟩ := seen_next h.current (h.sync.holds b hmem) hnext
    have hkept : ∀ x zs, s.lender.arrays[b.array x]? = some zs →
        r.1.arrays[b.array x]? = some zs := fun x zs hzs => harrays.symm ▸ hzs
    intro c hc' x ys hx
    rcases List.mem_or_eq_of_mem_set hc' with hc' | rfl
    · obtain ⟨hget, hread⟩ := hr c hc' x ys hx
      exact ⟨hget, fun hrel => (hread hrel).mono rfl (fun _ => id) fun zs hzs =>
        harrays.symm ▸ hzs⟩
    · rw [hdone, gets_snoc, frees_snoc]
      rcases hseen x ys hx with hx | ⟨e, xs, rfl, hget, hxs, he⟩
      · obtain ⟨hget, hread⟩ := hr b hmem x ys hx
        refine ⟨List.mem_append_left _ hget, fun hrel => ?_⟩
        exact (hread fun hm => hrel (List.mem_append_left _ hm)).mono (next_script hnext).1
          (fun st' hst' => hdone ▸ List.mem_append_left _ hst') (hkept x)
      · refine ⟨List.mem_append_left _ hget, fun _ => ⟨e, xs, ?_, ?_, he⟩⟩
        · rw [hdone]
          exact List.mem_append_right _ (List.mem_singleton.mpr rfl)
        · rw [(next_script hnext).1]
          exact hkept x xs hxs

/-- the state of a run in which nobody writes to an array that is lent; what a borrower has read
before its first release stood in the arrays together -/
structure Gathering (init : State α Var) (as : List (Act α Var)) (s : State α Var) : Prop where
  quiet : Quiet s
  reads : Reads s
  gathers : ∀ b ∈ s.borrowers, Gathers (b.done ++ b.rest)
  instant : ∀ b ∈ s.borrowers, frees b.done ≠ [] → ∃ m, Visits step init as m ∧
    ∀ x ys, b.seen x = some ys → Shows m.lender b x ys

/-- what a borrower has read after its step, when it has freed something: nothing new -/
theorem seen_freed {l : Lender α} {b : Borrower α Var} {isCopy : Bool}
    {r : Lender α × Borrower α Var} (hc : l.Current) (hb : Holds l b)
    (hg : Gathers (b.done ++ b.rest)) (h : b.next l isCopy = some r) (hrel : frees r.2.done ≠ []) :
    ∀ x ys, r.2.seen x = some ys → b.seen x = some ys := by
  obtain ⟨st, rest, hdone, hrest, hseen⟩ := seen_next hc hb h
  intro x ys hx
  rcases hseen x ys hx with hx | ⟨e, xs, rfl, _⟩
  · exact hx
  · rw [hdone, frees_snoc, show (Stmt.read x e : Stmt α Var).freed.toList = [] from rfl,
      List.append_nil] at hrel
    obtain ⟨y, hy⟩ := List.exists_mem_of_ne_nil _ hrel
    obtain ⟨st', hst', hfreed⟩ := List.mem_filterMap.mp hy
    rw [hrest] at hg
    have hno := (List.pairwise_append.mp hg).2.2 st' hst' _ List.mem_cons_self
      (by rw [hfreed]; rfl)
    cases hno

theorem Gathering.step {init s s' : State α Var} {as : List (Act α Var)} {a : Act α Var}
    (h : Gathering init as s) (hrun : run step init as = some s) (ha : a.Checked)
    (hno : a.ReadOnly) (hg : a.Gathered) (hspares : a.Spares s.lender.Lent)
    (hs : step s a = some s') : Gathering init (as ++ [a]) s' := by
  have hvisits : ∀ m, Visits Lending.step init as m → Visits Lending.step init (as ++ [a]) m :=
    fun m hm => hm.mono (List.prefix_append _ _)
  have hcopies := hspares.mono fun _ => Lender.LentCopy.lent
  have hq := h.quiet
  refine ⟨(hq.step ha hno hcopies hs).1, h.reads.step hq hspares hs, fun c hc => ?_,
    fun c hc hrel => ?_⟩
  · rcases step_borrowers hs hc with hold | ⟨array, script, rfl, rfl⟩ | ⟨b, hb, isCopy, r, hr, rfl⟩
    · exact h.gathers c hold
    · exact hg
    · rw [(next_script hr).2]
      exact h.gathers b hb
  · rcases step_borrowers hs hc with hold | ⟨array, script, rfl, rfl⟩ | ⟨b, hb, isCopy, r, hr, rfl⟩
    · obtain ⟨m, hm, hread⟩ := h.instant c hold hrel
      exact ⟨m, hvisits m hm, hread⟩
    · exact absurd rfl hrel
    · have hseen := seen_freed hq.current (hq.sync.holds b hb) (h.gathers b hb) hr hrel
      obtain ⟨st, _, hdone, _⟩ := seen_next hq.current (hq.sync.holds b hb) hr
      have hkept : ∀ m : State α Var, ∀ x ys, Shows m.lender b x ys → Shows m.lender r.2 x ys :=
        fun m x ys hshow => hshow.mono (next_script hr).1
          (fun st' hst' => hdone ▸ List.mem_append_left _ hst') fun _ => id
      by_cases hbefore : frees b.done = []
      · refine ⟨s, hvisits s (Visits.last hrun), fun x ys hx => hkept s x ys ?_⟩
        exact (h.reads b hb x ys (hseen x ys hx)).2 (by rw [hbefore]; exact List.not_mem_nil)
      · obtain ⟨m, hm, hread⟩ := h.instant b hb hbefore
        exact ⟨m, hvisits m hm, fun x ys hx => hkept m x ys (hread x ys (hseen x ys hx))⟩

/-! ## whole runs -/

theorem run_sync {s : State α Var} {as : List (Act α Var)} (ha : ∀ a ∈ as, a.Checked)
    (h : run step init as = some s) : Sync s :=
  run_inv_along (fun _ _ _ hc hi hs => hi.step hc hs) (along_of_forall init ha) sync_init h

/-- **Where no script writes, and nobody else does to an array of which a copy is lent, the arrays
are what was written.** -/
theorem run_arrays {s : State α Var} {as : List (Act α Var)}
    (ha : ∀ a ∈ as, a.Checked ∧ a.ReadOnly)
    (hspares : Along step (fun s a => a.Spares s.lender.LentCopy) init as)
    (h : run step init as = some s) : s.lender.arrays = as.foldl onArrays [] := by
  have hquiet : Quiet s ∧ s.lender.arrays = as.foldl onArrays [] := by
    refine run_hist_along (I := fun t done => Quiet t ∧ t.lender.arrays = done.foldl onArrays [])
      ⟨quiet_init, rfl⟩ (fun t done a u hc _ ht hu => ?_)
      (hspares.and (along_of_forall init ha)) h
    obtain ⟨hq, harrays⟩ := ht.1.step hc.2.1 hc.2.2 hc.1 hu
    refine ⟨hq, ?_⟩
    rw [harrays, ht.2, List.foldl_append]
    rfl
  exact hquiet.2

/-- **Where no script writes, and nobody else does to an array that is lent, what a borrower has
read stood in the arrays at one instant.** -/
theorem run_instant {s : State α Var} {as : List (Act α Var)}
    (ha : ∀ a ∈ as, a.Checked ∧ a.ReadOnly ∧ a.Gathered)
    (hspares : Along step (fun s a => a.Spares s.lender.Lent) init as)
    (h : run step init as = some s) {b : Borrower α Var} (hb : b ∈ s.borrowers) :
    ∃ m, Visits step init as m ∧ ∀ x ys, b.seen x = some ys → Shows m.lender b x ys := by
  have hinit : Gathering (init : State α Var) [] init :=
    ⟨quiet_init, fun _ hb => absurd hb List.not_mem_nil, fun _ hb => absurd hb List.not_mem_nil,
      fun _ hb => absurd hb List.not_mem_nil⟩
  have hgathering : Gathering init as s := run_hist_along
    (I := fun t done => Gathering init done t) hinit
    (fun t done a u hc hrun ht hu => ht.step hrun hc.2.1 hc.2.2.1 hc.2.2.2 hc.1 hu)
    (hspares.and (along_of_forall init ha)) h
  by_cases hrel : frees b.done = []
  · refine ⟨s, Visits.last h, fun x ys hx => (hgathering.reads b hb x ys hx).2 ?_⟩
    rw [hrel]
    exact List.not_mem_nil
  · exact hgathering.instant b hb hrel

end

end

end Lending
