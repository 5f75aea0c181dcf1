import JitIndex.Failure
import JitIndex.Index.Collect

/-!
# Writing to an index

The operations of the writer. Each one that unlinks something collects afterwards, and each one
that needs a slot collects before, so that slots come back as soon as they can. None of them
waits. A removal that is to hand the frame table back is split in two for that reason:
`unlinkCode` takes the region out, and `pollRemoval` asks, as often as it takes, whether its table
is free of readers.

The frame table of a region belongs to the index from the moment it is offered, also when the
region is refused.
-/

namespace JitIndex.Index

/-- Links a node of the code list, in one mutation. -/
def linkCode (ix : Index) (id : SlotId) : Option (SkipList.Entry CodeRecord) × Index :=
  ix.mutate fun ix => ix.changeCode countOf fun code => code.link id

/-- Takes a region's frame table over and puts the region into the code list, in the place of the
one with the same start if there is one. -/
def registerCode (ix : Index) (region : CodeRegion) :
    Except Failure (Option (SkipList.Entry CodeRecord)) × Index :=
  let owned : OwnedTable := ⟨ix.taken, region.table⟩
  let taken := ix.taken + 1
  match ix.code.alloc (ix.host.note (.tableTaken owned)) region.start ⟨region.size, owned⟩ with
  | (.error f, code, host) =>
    (.error f,
      { ix with
        code, taken
        host := host.notes [.tableDropped none owned, .codeRefused region.toSpan] })
  | (.ok id, code, host) =>
    let filled := { ix with code, taken, host := host.note (.slotFilled .code id) }
    let (replaced, ix) := filled.linkCode id
    (.ok replaced,
      { ix with
        host := ix.host.check (replaced.all fun old => old.key == region.start) .strayReplacement })

/-- Registers a code region. One that is registered at the same address is replaced. -/
def addCode (ix : Index) (region : CodeRegion) : Except Failure Unit × Index :=
  match ix.collect.registerCode region with
  | (.error f, ix) => (.error f, ix)
  | (.ok replaced, ix) =>
    let ix := if replaced.isSome then (ix.note (.codeReplaced region.start)).collect else ix
    (.ok (), ix.note (.codeAdded region.toSpan))

/-- Unlinks the code region that starts at an address, if there is one; the answer is its slot. -/
def unlinkCode (ix : Index) (start : Addr) : Option SlotId × Index :=
  match ix.code.get? start with
  | none => (none, ix)
  | some _ =>
    let (entry, ix) := ix.mutate fun ix => ix.changeCode countOf fun code => code.unlink start
    (entry.map (·.id), ix)

/-- Asks whether the frame table of an unlinked code region can be handed back. -/
def pollRemoval (ix : Index) (id : SlotId) : Option OwnedTable × Index :=
  ix.collectKeeping (some id)

/-- Links a node of the depth list, in one mutation. -/
def linkDepth (ix : Index) (id : SlotId) : Option (SkipList.Entry Payload) × Index :=
  ix.mutate fun ix => ix.changeDepth countOf fun depth => depth.link id

/-- Puts a region into the depth list, in the place of the one with the same start if there is
one. -/
def registerDepth (ix : Index) (region : DepthRegion) :
    Except Failure (Option (SkipList.Entry Payload)) × Index :=
  match ix.depth.alloc ix.host region.start region.encode with
  | (.error f, depth, host) =>
    (.error f, { ix with depth, host := host.note (.depthRefused region.toSpan) })
  | (.ok id, depth, host) =>
    let filled := { ix with depth, host := host.note (.slotFilled .depth id) }
    let (replaced, ix) := filled.linkDepth id
    (.ok replaced, ix)

/-- Registers a depth region. One that is registered at the same address is replaced. -/
def addDepth (ix : Index) (region : DepthRegion) : Except Failure Unit × Index :=
  match ix.collect.registerDepth region with
  | (.error f, ix) => (.error f, ix)
  | (.ok replaced, ix) =>
    (.ok (), if replaced.isSome then (ix.note (.depthReplaced region.start)).collect else ix)

/-- Unlinks every depth region that starts between two addresses, in one mutation. -/
def sweepDepths (ix : Index) (low high : Addr) : List (SkipList.Entry Payload) × Index :=
  ix.mutate fun ix => ix.changeDepth List.length fun depth => depth.unlinkBetween low high

/-- Removes every depth region that starts inside a span, in one mutation; the answer is how many
there were. An empty span is not even looked at. -/
def clearDepths (ix : Index) (span : Span) : Nat × Index :=
  if span.size = 0 then (0, ix)
  else
    let last := span.start.addSat (span.size - 1)
    let (removed, ix) := ix.sweepDepths span.start last
    let ix := if removed.isEmpty then ix else ix.collect
    (removed.length, ix.note (.depthsCleared removed.length span.start (last.addSat 1)))

/-- Registers depth regions from the last change of depth to the first, each reaching up to where
the one after it starts. A change that covers nothing leaves no region, but moves the end. -/
def addDepthsDown (ix : Index) (start : Addr) :
    Addr → List (Addr × UInt32) → Except Failure Unit × Index
  | _, [] => (.ok (), ix)
  | stop, (offset, depth) :: earlier =>
    let pos := start.addSat offset
    if pos < stop then
      match ix.addDepth ⟨⟨pos, stop - pos⟩, depth⟩ with
      | (.error f, ix) => (.error f, ix)
      | (.ok (), ix) => ix.addDepthsDown start pos earlier
    else
      ix.addDepthsDown start pos earlier

/-- Registers the stack depths of a block of code. They are given as the offsets at which the
depth changes, in ascending order, each with the depth from there up to the next change or the end
of the block. If a region is refused, those behind it stay registered. -/
def addDepthMap (ix : Index) (start stop : Addr) (changes : List (Addr × UInt32)) :
    Except Failure Unit × Index :=
  ix.addDepthsDown start stop changes.reverse

/-- Forgets a block of code: the code region that starts with it, and every depth region that
starts inside it. -/
def freeBlock (ix : Index) (start stop : Addr) : Index :=
  let (_, ix) := ix.unlinkCode start
  let (_, ix) := ix.clearDepths ⟨start, stop.subSat start⟩
  ix.collect

/-- Unlinks every region of both lists, in one mutation; the answer holds the code regions. -/
def unlinkEverything (ix : Index) : List (SkipList.Entry CodeRecord) × Index :=
  ix.mutate fun ix =>
    let (removed, ix) := ix.changeCode List.length SkipList.unlinkAll
    let (_, ix) := ix.changeDepth List.length SkipList.unlinkAll
    (removed, ix)

/-- Removes every region, in one mutation, if there are any. -/
def clear (ix : Index) : Index :=
  if ix.code.first?.isNone && ix.depth.first?.isNone then ix
  else
    let (removed, ix) := ix.unlinkEverything
    ix.collect.note (.indexCleared removed.length)

/-- Leaves the code regions that readers may still come upon to the index, which drops their
tables with itself. -/
def abandon (ix : Index) : Index :=
  if ix.sealedEpoch.isSome || ix.code.hasRetired then
    { ix.note .leftToReaders with sealedEpoch := none, code := ix.code.orphan }
  else ix

/-- The writer goes away, after it has removed every region and released what it could. -/
def closeWriter (ix : Index) : Index := ix.clear.collect.abandon

/-- The index goes away, after its writer and its last reader. -/
def dispose (ix : Index) : Index :=
  let (orphans, code) := ix.code.drain
  let host := disposeTables ix.host [] orphans
  { ix with code, host := ix.depth.dispose (code.dispose host) }

def text (ix : Index) : String :=
  Text.partialRecord "CodeMapWriter"
    [("code_regions", toString ix.code.count), ("depth_regions", toString ix.depth.count),
     ("sealed_epoch", Text.optional (ix.sealedEpoch.map fun e => toString e.val)),
     ("config", ix.settings.text)]

end JitIndex.Index
