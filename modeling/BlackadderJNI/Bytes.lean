import Mathlib.Tactic.Common

/-!
# Byte arrays

Byte strings as the Java and the native code both see them, and what the code uses of
`java.util.Arrays`.
-/

namespace BA

/-- the contents of a Java `byte[]` or of a C++ byte string -/
abbrev Bytes := List UInt8

/-- `java.util.Arrays.hashCode(byte[])` of a non-null array: Java bytes are signed, `int`
arithmetic wraps -/
def arraysHashCode (a : Bytes) : Int32 :=
  a.foldl (fun h b => 31 * h + b.toInt8.toInt32) 1

/-- `java.util.Arrays.copyOfRange(a, lo, hi)`, for bounds inside the array -/
def copyOfRange (a : Bytes) (lo hi : Nat) : Bytes := (a.take hi).drop lo

/-- an index into a heap: of tree nodes, or of native memory blocks -/
abbrev Addr := Nat

end BA
