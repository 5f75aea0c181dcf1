/-!
# Addresses and spans

Code lives at 64-bit addresses. A span is a start address and a length in bytes; it may run past
the last address, in which case the part that does not exist is simply not there. Membership is
therefore decided by subtracting the start, which cannot overflow, and the end of a span is
reported as the last address when the true end does not exist.

Main statements: `toNat_addSat` and `toNat_subSat` give the two clamped operations in unbounded
arithmetic, and `Span.contains_iff` says that a span holds exactly the addresses between its
start and its unbounded end.
-/

namespace JitIndex

/-- A machine address, or a length in bytes. -/
abbrev Addr := UInt64

namespace Addr

/-- The sum of two addresses, or the last address where the sum does not exist. -/
def addSat (a b : Addr) : Addr := UInt64.ofNat (min (a.toNat + b.toNat) (UInt64.size - 1))

/-- The distance from `b` up to `a`, or zero where `a` lies below `b`. -/
def subSat (a b : Addr) : Addr := if b ≤ a then a - b else 0

theorem toNat_addSat (a b : Addr) :
    (addSat a b).toNat = min (a.toNat + b.toNat) (UInt64.size - 1) := by
  rw [addSat, UInt64.toNat_ofNat_of_lt']
  exact Nat.lt_of_le_of_lt (Nat.min_le_right _ _) (by decide)

theorem toNat_subSat (a b : Addr) : (subSat a b).toNat = a.toNat - b.toNat := by
  unfold subSat
  split
  · rename_i h
    exact UInt64.toNat_sub_of_le a b h
  · rename_i h
    have : a.toNat < b.toNat := by simpa [UInt64.le_iff_toNat_le] using h
    simp only [UInt64.toNat_zero]
    omega

end Addr

/-- A stretch of `size` addresses from `start` on. -/
structure Span where
  start : Addr
  size : Addr
deriving DecidableEq, Inhabited

namespace Span

/-- One past the last address of the span, or the last address there is. -/
def stop (s : Span) : Addr := s.start.addSat s.size

/-- Whether the span covers an address. The distance from the start is taken only once the
address is known not to lie below it, so a span that runs past the last address is no special
case. -/
def contains (s : Span) (a : Addr) : Bool := s.start ≤ a && a - s.start < s.size

def offset (s : Span) (a : Addr) : Nat := (a - s.start).toNat

theorem contains_iff (s : Span) (a : Addr) :
    s.contains a = true ↔
      s.start.toNat ≤ a.toNat ∧ a.toNat < s.start.toNat + s.size.toNat := by
  simp only [contains, Bool.and_eq_true, decide_eq_true_eq]
  constructor
  · rintro ⟨hle, hlt⟩
    have hsub := UInt64.toNat_sub_of_le a s.start hle
    rw [UInt64.lt_iff_toNat_lt, hsub] at hlt
    rw [UInt64.le_iff_toNat_le] at hle
    omega
  · rintro ⟨hle, hlt⟩
    have hle' : s.start ≤ a := UInt64.le_iff_toNat_le.mpr hle
    refine ⟨hle', ?_⟩
    rw [UInt64.lt_iff_toNat_lt, UInt64.toNat_sub_of_le a s.start hle']
    omega

end Span

end JitIndex
