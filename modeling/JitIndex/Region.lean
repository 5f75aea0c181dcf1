import JitIndex.Address
import JitIndex.Frame.Walk

/-!
# Regions

The index knows two kinds of spans. A code region is a block of machine code with its frame
table; a depth region is a span that runs at one native stack depth. Offsets into a frame table
are relative to the start of the region, and an address outside the region has no frames.
-/

namespace JitIndex

structure CodeRegion extends Span where
  table : FrameTable
deriving DecidableEq, Inhabited

namespace CodeRegion

/-- The search for the frames at an address. -/
def walkAt (r : CodeRegion) (a : Addr) : FrameWalk :=
  if r.contains a then .start r.table (r.offset a) else .empty

def framesAt (r : CodeRegion) (a : Addr) : List FrameId := (r.walkAt a).collect.1

/-- The next frame at an address, from a word of the table on, and the word to go on from. -/
def next? (r : CodeRegion) (a : Addr) (cursor : Nat) : Option (FrameId × Nat) :=
  if r.contains a then r.table.next? (r.offset a) cursor else none

def text (r : CodeRegion) : String :=
  Text.record "CodeRegion" [("start", Text.hex r.start.toNat), ("size", toString r.size.toNat),
    ("frame_info", r.table.flatText)]

end CodeRegion

/-- Three words attached to a key: all that an index of plain records needs. -/
structure Payload where
  first : UInt64
  second : UInt64
  third : UInt64
deriving DecidableEq, Inhabited

namespace Payload

def words (p : Payload) : List UInt64 := [p.first, p.second, p.third]

end Payload

/-- Code that runs at a fixed native stack depth. -/
structure DepthRegion extends Span where
  depth : UInt32
deriving DecidableEq, Inhabited

namespace DepthRegion

/-- The words kept for a depth region under its start. -/
def encode (r : DepthRegion) : Payload := ⟨r.size, r.depth.toUInt64, 0⟩

/-- The depth region that words describe. A depth has 32 bits; higher ones are dropped. -/
def decode (start : Addr) (p : Payload) : DepthRegion := ⟨⟨start, p.first⟩, p.second.toUInt32⟩

theorem decode_encode (r : DepthRegion) : decode r.start r.encode = r := by
  obtain ⟨⟨start, size⟩, depth⟩ := r
  simp [decode, encode]

def text (r : DepthRegion) : String :=
  Text.record "DepthRegion" [("start", toString r.start.toNat), ("size", toString r.size.toNat),
    ("stack_depth", toString r.depth.toNat)]

end DepthRegion

end JitIndex
