import JitIndex.Failure
import JitIndex.Index.Basic

/-!
# Reading an index

A reader pins itself at the gate, looks around, and leaves. What it saw is consistent if no
mutation has begun since it pinned itself; it can ask at any time. What it came upon stays readable
until it leaves, consistent or not.

`traceback` and `depthAt` are whole readings: pin, one look-up, and the check at the end.
-/

namespace JitIndex.Index

def pin? (ix : Index) : Option (Gate.Pin × Index) :=
  ix.gate.pin?.map fun (pin, gate) => (pin, { ix with gate })

def unpin (ix : Index) (pin : Gate.Pin) : Index := { ix with gate := ix.gate.unpin pin }

/-- Whether no mutation has begun since a reader pinned itself. -/
def isCurrent (ix : Index) (pin : Gate.Pin) : Bool := ix.gate.isCurrent pin

/-- The slot of the code region that covers an address. -/
def codeSlotAt? (ix : Index) (a : Addr) : Option SlotId :=
  ((ix.code.floor? a).filter fun e => (CodeRegion.ofEntry e).contains a).map (·.id)

def codeIn? (ix : Index) (id : SlotId) : Option CodeRegion :=
  (ix.code.entry? id).map CodeRegion.ofEntry

def codeAt? (ix : Index) (a : Addr) : Option CodeRegion :=
  ((ix.code.floor? a).map CodeRegion.ofEntry).filter (·.contains a)

def depthRegionAt? (ix : Index) (a : Addr) : Option DepthRegion :=
  ((ix.depth.floor? a).map DepthRegion.ofEntry).filter (·.contains a)

def firstCode? (ix : Index) : Option Addr := ix.code.first?.map (·.key)

def codeRegions (ix : Index) : List CodeRegion := ix.code.entries.map CodeRegion.ofEntry

def depthRegions (ix : Index) : List DepthRegion := ix.depth.entries.map DepthRegion.ofEntry

/-- A whole reading: the answer of a look-up, if it is consistent. -/
def reading {β : Type} (ix : Index) (look : Index → β) : Except Failure β × Index :=
  match ix.pin? with
  | none => (.error .invalidated, ix)
  | some (pin, ix) =>
    let answer := look ix
    (if ix.isCurrent pin then .ok answer else .error .invalidated, ix.unpin pin)

/-- The frames that are active at an address, outermost first. -/
def traceback (ix : Index) (a : Addr) : Except Failure (List FrameId) × Index :=
  ix.reading fun ix => ((ix.codeAt? a).map (·.framesAt a)).getD []

/-- The stack depth at an address, if it is known. -/
def depthAt (ix : Index) (a : Addr) : Except Failure (Option UInt32) × Index :=
  ix.reading fun ix => (ix.depthRegionAt? a).map (·.depth)

end JitIndex.Index
