import Mathlib.Data.List.AList
import BlackadderJNI.Bytes
import BlackadderJNI.Lib.Prefix

/-!
# The prefix tree of the control handlers

Translation of `callback/LPMTree.java` (classes `LPMTree` and `Node`).  The tree is a linked
structure that `add` and `delete` change in place, so a tree is a heap of nodes and the address
of its root:

* `Node`              the fields of a `Node`; `children` maps a hash to the address of a child
                      (a `java.util.HashMap`, here a finite map);
* `Heap`              the nodes allocated so far; an address is an index;
* `LPMTree.add`, `LPMTree.delete`, `LPMTree.searchPrefix`
                      the three operations, each with the loops of the source.

`scopeIdLen` is the static field of the same name (8 unless `setScopeIdLen` is called).
-/

namespace BA

/-! ## nodes -/

structure Node (V : Type) where
  chunk : Option Bytes
  value : Option V
  children : AList fun _ : Int32 => Addr

namespace Node
variable {V : Type}

/-- `Node()` -/
def new : Node V := ⟨none, none, ∅⟩

/-- `Node(byte[] chunk)` -/
def ofChunk (chunk : Bytes) : Node V := { (new : Node V) with chunk := some chunk }

def setValue (n : Node V) (value : Option V) : Node V := { n with value := value }

/-- a node is valid if it has a child or a value -/
def isValid (n : Node V) : Bool := n.children.keys.length != 0 || n.value.isSome

/-- `Arrays.hashCode(chunk)`, which is 0 for the null chunk of a root -/
def hashCode (n : Node V) : Int32 :=
  match n.chunk with
  | some chunk => arraysHashCode chunk
  | none => 0

def getChild (n : Node V) (chunk : Bytes) : Option Addr := n.children.lookup (arraysHashCode chunk)

/-- `addChild` of a child with hash `hashCode` -/
def addChild (n : Node V) (hashCode : Int32) (child : Addr) : Node V :=
  if hashCode ∈ n.children then n
  else { n with children := n.children.insert hashCode child }

/-- `removeChild` of a child with hash `hashCode` -/
def removeChild (n : Node V) (hashCode : Int32) : Node V :=
  if hashCode ∈ n.children then { n with children := n.children.erase hashCode }
  else n

end Node

/-! ## the heap -/

abbrev Heap (V : Type) := List (Node V)

namespace Heap
variable {V : Type}

def deref (h : Heap V) (a : Addr) : Node V := (h[a]?).getD Node.new

def setValue (h : Heap V) (a : Addr) (value : Option V) : Heap V :=
  h.modify a fun n => n.setValue value

def addChild (h : Heap V) (a child : Addr) : Heap V :=
  h.modify a fun n => n.addChild (h.deref child).hashCode child

def removeChild (h : Heap V) (a child : Addr) : Heap V :=
  h.modify a fun n => n.removeChild (h.deref child).hashCode

end Heap

/-! ## the tree -/

structure LPMTree (V : Type) where
  heap : Heap V
  root : Addr

namespace LPMTree
variable {V : Type}

/-- `LPMTree()` -/
def new : LPMTree V := ⟨[Node.new], 0⟩

def tokenize (rid : Bytes) (chunkSize : Nat) : List Bytes :=
  (List.range (rid.length / chunkSize)).map fun i =>
    copyOfRange rid (i * chunkSize) ((i + 1) * chunkSize)

/-- the loop of `add`: from `currentNode` down the remaining chunks, with a new node for each
missing child (`hasChild` asks whether `getChild` finds one); gives the last node -/
def addLoop (h : Heap V) (currentNode : Addr) : List Bytes → Heap V × Addr
  | [] => (h, currentNode)
  | chunk :: chunks =>
    match (h.deref currentNode).getChild chunk with
    | some child => addLoop h child chunks
    | none =>
      let newChild := h.length
      addLoop (Heap.addChild (h ++ [Node.ofChunk chunk]) currentNode newChild) newChild chunks

theorem addLoop_child {h : Heap V} {cur child : Addr} {chunk : Bytes}
    (hc : (h.deref cur).getChild chunk = some child) (chunks : List Bytes) :
    addLoop h cur (chunk :: chunks) = addLoop h child chunks := by
  simp only [addLoop, hc]

theorem addLoop_new {h : Heap V} {cur : Addr} {chunk : Bytes}
    (hc : (h.deref cur).getChild chunk = none) (chunks : List Bytes) :
    addLoop h cur (chunk :: chunks) =
      addLoop (Heap.addChild (h ++ [Node.ofChunk chunk]) cur h.length) h.length chunks := by
  simp only [addLoop, hc]

def add (scopeIdLen : Nat) (t : LPMTree V) (rid : Bytes) (value : V) : LPMTree V :=
  let r := addLoop t.heap t.root (tokenize rid scopeIdLen)
  { t with heap := Heap.setValue r.1 r.2 (some value) }

/-- the first loop of `delete`: the array `checkRemove` and the last node, `none` when a child
is missing -/
def deleteLoop (h : Heap V) (currentNode : Addr) : List Bytes → Option (List Addr × Addr)
  | [] => some ([], currentNode)
  | chunk :: chunks =>
    match (h.deref currentNode).getChild chunk with
    | some child =>
      (deleteLoop h child chunks).map fun (checkRemove, last) => (child :: checkRemove, last)
    | none => none

theorem deleteLoop_child {h : Heap V} {cur child : Addr} {chunk : Bytes}
    (hc : (h.deref cur).getChild chunk = some child) (chunks : List Bytes) :
    deleteLoop h cur (chunk :: chunks) =
      (deleteLoop h child chunks).map fun r => (child :: r.1, r.2) := by
  simp only [deleteLoop, hc]

theorem deleteLoop_stop {h : Heap V} {cur : Addr} {chunk : Bytes}
    (hc : (h.deref cur).getChild chunk = none) (chunks : List Bytes) :
    deleteLoop h cur (chunk :: chunks) = none := by
  simp only [deleteLoop, hc]

/-- `if (toBeRemoved != null) node.removeChild(toBeRemoved)` -/
def unlink (h : Heap V) (node : Addr) : Option Addr → Heap V
  | some toBeRemoved => Heap.removeChild h node toBeRemoved
  | none => h

/-- the second loop of `delete`, over `checkRemove` from its last entry to its first: the node
found invalid in one iteration (`toBeRemoved`) is unlinked in the next one -/
def pruneLoop (h : Heap V) (toBeRemoved : Option Addr) : List Addr → Heap V × Option Addr
  | [] => (h, toBeRemoved)
  | node :: rest =>
    let h' := unlink h node toBeRemoved
    pruneLoop h' (if (h'.deref node).isValid then none else some node) rest

def delete (scopeIdLen : Nat) (t : LPMTree V) (rid : Bytes) : LPMTree V × Bool :=
  match deleteLoop t.heap t.root (tokenize rid scopeIdLen) with
  | none => (t, false)
  | some (checkRemove, last) =>
    let r := pruneLoop (Heap.setValue t.heap last none) none checkRemove.reverse
    ({ t with heap := unlink r.1 t.root r.2 }, true)

/-- the loop of `searchPrefix`: the last node reached -/
def searchLoop (h : Heap V) (currentNode : Addr) : List Bytes → Addr
  | [] => currentNode
  | chunk :: chunks =>
    match (h.deref currentNode).getChild chunk with
    | some child => searchLoop h child chunks
    | none => currentNode

theorem searchLoop_child {h : Heap V} {cur child : Addr} {chunk : Bytes}
    (hc : (h.deref cur).getChild chunk = some child) (chunks : List Bytes) :
    searchLoop h cur (chunk :: chunks) = searchLoop h child chunks := by
  simp only [searchLoop, hc]

theorem searchLoop_stop {h : Heap V} {cur : Addr} {chunk : Bytes}
    (hc : (h.deref cur).getChild chunk = none) (chunks : List Bytes) :
    searchLoop h cur (chunk :: chunks) = cur := by
  simp only [searchLoop, hc]

def searchPrefix (scopeIdLen : Nat) (t : LPMTree V) (rid : Bytes) : Option V :=
  (t.heap.deref (searchLoop t.heap t.root (tokenize rid scopeIdLen))).value

/-! ## histories -/

/-- one call on the tree; the value of an `add` is not null -/
inductive Op (V : Type) where
  | add (rid : Bytes) (value : V)
  | delete (rid : Bytes)

/-- the key an operation is about -/
def Op.rid : Op V → Bytes
  | .add rid _ => rid
  | .delete rid => rid

/-- the binding an operation leaves at its key -/
def Op.binding : Op V → Option V
  | .add _ value => some value
  | .delete _ => none

def apply (scopeIdLen : Nat) (t : LPMTree V) : Op V → LPMTree V
  | .add rid value => t.add scopeIdLen rid value
  | .delete rid => (t.delete scopeIdLen rid).1

/-- the tree after a history of calls on an empty tree -/
def after (scopeIdLen : Nat) (ops : List (Op V)) : LPMTree V :=
  ops.foldl (apply scopeIdLen) new

theorem after_snoc (k : Nat) (ops : List (Op V)) (o : Op V) :
    after k (ops ++ [o]) = apply k (after k ops) o := by
  simp [after]

/-- the hash path of a key: the hashes of its consecutive chunks -/
def hashPath (scopeIdLen : Nat) (rid : Bytes) : List Int32 :=
  (Prefix.chunks scopeIdLen rid).map arraysHashCode

/-- `tokenize` cuts an identifier into its consecutive chunks -/
theorem tokenize_eq (rid : Bytes) (chunkSize : Nat) :
    tokenize rid chunkSize = Prefix.chunks chunkSize rid :=
  rfl

theorem hashPath_eq (scopeIdLen : Nat) (rid : Bytes) :
    hashPath scopeIdLen rid = (tokenize rid scopeIdLen).map arraysHashCode := by
  rw [tokenize_eq]
  rfl

end LPMTree

end BA
