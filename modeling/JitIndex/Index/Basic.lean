import JitIndex.Gate.Word
import JitIndex.Region
import JitIndex.Settings
import JitIndex.SkipList.Parking

/-!
# The index of a process that compiles code while it runs

An index answers two questions about an address inside code that was made at run time: which
logical frames are active there, and how deep the native stack is. It keeps the code regions in
one skip list and the depth regions in another, both under their start addresses. Its writer
changes both lists between the beginning and the end of a mutation at the gate, and its readers
look things up while pinned there.

`SkipList` keeps what is linked and what is parked; the gate knows who may still be looking; and
`sealedEpoch` ties them together: it is the epoch whose readers may still come upon the sealed
nodes of both lists.
-/

namespace JitIndex

/-- What the index keeps for a code region under its start. It owns the frame table. -/
structure CodeRecord where
  size : Addr
  owned : OwnedTable
deriving DecidableEq, Inhabited

/-- The code region that an entry of the code list stands for. -/
def CodeRegion.ofEntry (e : SkipList.Entry CodeRecord) : CodeRegion :=
  ⟨⟨e.key, e.payload.size⟩, e.payload.owned.table⟩

/-- The depth region that an entry of the depth list stands for. -/
def DepthRegion.ofEntry (e : SkipList.Entry Payload) : DepthRegion := .decode e.key e.payload

/-- An index, its host, and what its writer remembers. -/
structure Index where
  gate : Gate := .initial
  code : SkipList CodeRecord
  depth : SkipList Payload
  /-- The epoch whose readers may still come upon the sealed nodes. -/
  sealedEpoch : Option Epoch := none
  taken : Nat := 0
  settings : Settings
  host : Host

namespace Index

def empty (settings : Settings) (allocator : Allocator) : Index where
  code := .ofSeed settings.seed
  depth := .ofSeed settings.depthSeed
  settings := settings
  host := { allocator }

def note (ix : Index) (e : Event) : Index := { ix with host := ix.host.note e }

def beginMutation (ix : Index) : Index :=
  { ix with
    gate := ix.gate.beginMutation
    host := (ix.host.check (!ix.gate.isOpen) .nestedMutation).note .mutationBegun }

def endMutation (ix : Index) : Index := { ix with gate := ix.gate.endMutation }

/-- Carries out a change between the beginning and the end of a mutation. -/
def mutate {β : Type} (ix : Index) (change : Index → β × Index) : β × Index :=
  let (answer, changed) := change ix.beginMutation
  (answer, changed.endMutation)

/-- Changes the code list so that the answer holds what was unlinked. -/
def changeCode {β : Type} (ix : Index) (unlinked : β → Nat)
    (change : SkipList CodeRecord → β × SkipList CodeRecord) : β × Index :=
  let before := ix.code.count
  let (answer, code) := change ix.code
  (answer, { ix with code, host := ix.host.check (unlinked answer ≤ before) .miscount })

/-- Changes the depth list so that the answer holds what was unlinked. -/
def changeDepth {β : Type} (ix : Index) (unlinked : β → Nat)
    (change : SkipList Payload → β × SkipList Payload) : β × Index :=
  let before := ix.depth.count
  let (answer, depth) := change ix.depth
  (answer, { ix with depth, host := ix.host.check (unlinked answer ≤ before) .miscount })

/-- How many things an optional thing is. -/
def countOf {α : Type} (thing? : Option α) : Nat := thing?.toList.length

end Index

end JitIndex
