/-!
The depth that bounds reduction, and the stack that a reduction of a given depth may take.
-/

namespace LambdaInt.Depth

/-- The depth allowed when no other is asked for. -/
def default : Nat :=
  1000

/-- The largest number of bytes that can be asked for. -/
def maxBytes : Nat :=
  UInt64.size - 1

/-- The bytes of stack reserved for a reduction: thirty-two kibibytes for each level of depth, and
a mebibyte besides, as far as that can be asked for. -/
def stackBytes (depth : Nat) : Nat :=
  min (depth * (32 * 1024) + 1024 * 1024) maxBytes

end LambdaInt.Depth
