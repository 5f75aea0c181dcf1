import JitIndex.Index.Basic

/-!
# Releasing what no reader can reach

Unlinked nodes wait in both lists. `collectKeeping` moves them along without ever waiting itself:
sealed nodes are released if the readers of their epoch have left, and if nothing is sealed then,
the retired nodes are sealed and a new epoch begins. Nodes sealed by this very call may be
released at once, because there may have been no reader, so the loop goes on until the sealed nodes
have readers or nothing is left to move.

A release leaves nothing sealed and a sealing leaves nothing retired, which is why the loop ends.

A released code node gives up its frame table. The table is dropped, unless the node is the one
that its owner waits for, in which case it is the answer.
-/

namespace JitIndex

namespace SkipList

universe u

variable {α : Type u}

theorem reclaimSome_retired (l : SkipList α) (fuel : Nat) :
    (l.reclaimSome fuel).2.retired = l.retired := by
  induction fuel generalizing l with
  | zero => rfl
  | succ fuel ih =>
      simp only [reclaimSome]
      split
      · rfl
      · split
        · rfl
        · exact ih _

end SkipList

namespace Index

def hasRetired (ix : Index) : Bool := ix.code.hasRetired || ix.depth.hasRetired

def disposeTables (host : Host) (kept dropped : List (SkipList.Entry CodeRecord)) : Host :=
  (host.notes (dropped.map fun e => .tableDropped (some e.id) e.payload.owned)).notes
    (kept.map fun e => .tableReturned e.id e.payload.owned)

/-- Releases every sealed node, after the readers of their epoch have left. -/
def release (ix : Index) (epoch : Epoch) (keep : Option SlotId) : Option OwnedTable × Index :=
  let (released, code) := ix.code.reclaim
  let (_, depth) := ix.depth.reclaim
  let (kept, dropped) := released.partition fun e => some e.id == keep
  let host := disposeTables ix.host kept dropped
  (kept.getLast?.map fun e => e.payload.owned,
    { ix with
      code, depth
      sealedEpoch := none
      host := host.note (.epochDrained epoch dropped.length) })

/-- Seals the retired nodes and begins a new epoch. The new epoch has drained: its readers left
before the nodes that were sealed under it could be released. -/
def sealRetired (ix : Index) : Index :=
  let epoch := ix.gate.epoch
  { ix with
    gate := ix.gate.turn
    sealedEpoch := some epoch
    code := ix.code.sealRetired
    depth := ix.depth.sealRetired
    host := (ix.host.check (ix.gate.hasDrained epoch.other) .busyEpoch).check
      (!ix.code.hasSealed && !ix.depth.hasSealed) .unreclaimed }

/-- How many times nodes can still move along: once for what is sealed, twice for what is
retired. -/
def movesLeft (ix : Index) : Nat :=
  (if ix.hasRetired then 2 else 0) + (if ix.sealedEpoch.isSome then 1 else 0)

theorem movesLeft_release (ix : Index) {epoch : Epoch} (keep : Option SlotId)
    (h : ix.sealedEpoch = some epoch) : (ix.release epoch keep).2.movesLeft < ix.movesLeft := by
  have hcode : ix.code.reclaim.2.retired = ix.code.retired := ix.code.reclaimSome_retired _
  have hdepth : ix.depth.reclaim.2.retired = ix.depth.retired := ix.depth.reclaimSome_retired _
  simp [movesLeft, release, hasRetired, SkipList.hasRetired, hcode, hdepth, h]

theorem movesLeft_sealRetired (ix : Index) (h : ix.sealedEpoch = none) (hr : ix.hasRetired = true) :
    ix.sealRetired.movesLeft < ix.movesLeft := by
  have hsealed : ix.sealRetired.hasRetired = false := rfl
  have hepoch : ix.sealRetired.sealedEpoch.isSome = true := rfl
  simp [movesLeft, hsealed, hepoch, h, hr]

/-- Releases all that can be released, and hands back the frame table of one node if it was among
it. -/
def collectKeeping (ix : Index) (keep : Option SlotId) : Option OwnedTable × Index :=
  match _h : ix.sealedEpoch with
  | some epoch =>
    if ix.gate.hasDrained epoch then
      let released := ix.release epoch keep
      let later := released.2.collectKeeping keep
      (later.1 <|> released.1, later.2)
    else (none, ix)
  | none =>
    if _hr : ix.hasRetired then ix.sealRetired.collectKeeping keep
    else (none, ix)
termination_by ix.movesLeft
decreasing_by
  · exact movesLeft_release ix keep _h
  · exact movesLeft_sealRetired ix _h _hr

def collect (ix : Index) : Index := (ix.collectKeeping none).2

end Index

end JitIndex
