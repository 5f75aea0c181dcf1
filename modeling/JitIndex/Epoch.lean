/-!
# Epochs

Readers are counted in two alternating epochs. While the readers of one epoch leave, new ones are
counted in the other.
-/

namespace JitIndex

/-- One of two alternating reader epochs. -/
abbrev Epoch := Fin 2

/-- Numerals stand for epochs. -/
instance Epoch.neZero : @NeZero Nat Zero.ofOfNat0 2 := ⟨by decide⟩

/-- The epoch that follows, which is also the one before. -/
def Epoch.other (e : Epoch) : Epoch := 1 - e

theorem Epoch.other_other (e : Epoch) : Epoch.other (Epoch.other e) = e := by
  revert e; decide

theorem Epoch.ne_other (e : Epoch) : e ≠ Epoch.other e := by
  revert e; decide

end JitIndex
