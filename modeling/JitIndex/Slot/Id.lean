/-!
# Slot ids

Slots are numbered from 1 with 32-bit numbers, so that a link can be a number and 0 can mean no
link. Slots live in segments: segment 0 holds the first 32, and every later segment twice as many
as the one before it. `SlotId.segment` and `SlotId.offset` find the place of a slot with one
logarithm: shifted by the length of segment 0, the linear index of a slot in segment `s` lies
between `32 * 2 ^ s` and `32 * 2 ^ (s + 1)`.

Main statements: `SlotId.segment_lt` (28 segments are enough for every id) and
`SlotId.offset_lt` (an offset lies inside its segment).
-/

namespace JitIndex

/-- The number of a slot. -/
structure SlotId where
  val : Nat
  pos : 0 < val
  lt : val < UInt32.size
deriving DecidableEq

namespace SlotId

/-- The id with a number, if there is one. -/
def ofNat? (n : Nat) : Option SlotId :=
  if h : 0 < n ∧ n < UInt32.size then some ⟨n, h.1, h.2⟩ else none

/-- The id of the slot that has `rank` slots before it, if there is one. -/
def nth? (rank : Nat) : Option SlotId :=
  if h : rank + 1 < UInt32.size then some ⟨rank + 1, Nat.succ_pos rank, h⟩ else none

end SlotId

def segmentCount : Nat := 28

/-- The logarithm of the length of segment 0. -/
def firstSegmentLog : Nat := 5

def segmentSize (segment : Nat) : Nat := 1 <<< (segment + firstSegmentLog)

namespace SlotId

/-- The place of a slot in the sequence of all slots, were it preceded by one more segment as
long as segment 0. -/
def shifted (id : SlotId) : Nat := id.val - 1 + segmentSize 0

def segment (id : SlotId) : Nat := Nat.log2 id.shifted - firstSegmentLog

def offset (id : SlotId) : Nat := id.shifted - segmentSize id.segment

theorem shifted_bounds (id : SlotId) :
    segmentSize 0 ≤ id.shifted ∧ id.shifted < 2 * UInt32.size := by
  have := id.pos
  have := id.lt
  simp only [shifted, segmentSize, firstSegmentLog, UInt32.size] at *
  omega

theorem shifted_ne_zero (id : SlotId) : id.shifted ≠ 0 := by
  have := id.shifted_bounds.1
  simp only [segmentSize, firstSegmentLog] at this
  omega

theorem log2_shifted (id : SlotId) :
    firstSegmentLog ≤ Nat.log2 id.shifted ∧ Nat.log2 id.shifted < 33 := by
  obtain ⟨hlo, hhi⟩ := id.shifted_bounds
  rw [segmentSize, Nat.one_shiftLeft, Nat.zero_add] at hlo
  exact ⟨(Nat.le_log2 id.shifted_ne_zero).mpr hlo, (Nat.log2_lt id.shifted_ne_zero).mpr hhi⟩

theorem segment_lt (id : SlotId) : id.segment < segmentCount := by
  have := id.log2_shifted
  simp only [segment, segmentCount, firstSegmentLog] at *
  omega

/-- A slot lies between the first slot of its segment and the first of the next one. -/
theorem segmentSize_le_shifted (id : SlotId) :
    segmentSize id.segment ≤ id.shifted ∧ id.shifted < 2 * segmentSize id.segment := by
  have hlog : id.segment + firstSegmentLog = Nat.log2 id.shifted := by
    have := id.log2_shifted.1
    simp only [segment]
    omega
  rw [segmentSize, hlog, Nat.one_shiftLeft]
  refine ⟨Nat.log2_self_le id.shifted_ne_zero, ?_⟩
  have := Nat.lt_log2_self (n := id.shifted)
  rw [Nat.pow_succ] at this
  omega

theorem offset_lt (id : SlotId) : id.offset < segmentSize id.segment := by
  have := id.segmentSize_le_shifted
  simp only [offset]
  omega

theorem eq_of_val : ∀ {a b : SlotId}, a.val = b.val → a = b
  | ⟨_, _, _⟩, ⟨_, _, _⟩, rfl => rfl

theorem eq_of_place {a b : SlotId} (hseg : a.segment = b.segment) (hoff : a.offset = b.offset) :
    a = b := by
  have ha := a.segmentSize_le_shifted.1
  have hb := b.segmentSize_le_shifted.1
  have hpa := a.pos
  have hpb := b.pos
  simp only [offset, hseg] at hoff
  rw [hseg] at ha
  have hshift : a.shifted = b.shifted := by omega
  refine eq_of_val ?_
  simp only [shifted] at hshift
  omega

end SlotId

end JitIndex
