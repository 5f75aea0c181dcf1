/-!
# Ways to fail

Three things can go wrong for a caller, and none of them is fatal: the allocator refuses a slot,
a reader meets a mutation, or a frame recording ends with a descriptor that no reader could
decode.
-/

namespace JitIndex

/-- Why an operation gave no result. -/
inductive Failure where
  | allocation
  /-- The index was mutated before or during a read. -/
  | invalidated
  /-- The descriptor that starts at `word` has a zero frame, stop or skip. -/
  | unterminated (word : Nat)
deriving DecidableEq

def Failure.message : Failure → String
  | .allocation => "allocation failure"
  | .invalidated => "code map was mutated concurrently"
  | .unterminated word => "frame descriptor at word " ++ toString word ++ " was never closed"

end JitIndex
