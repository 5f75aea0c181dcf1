import JitIndex.SkipList.Update

/-!
# Unlinked nodes

An unlinked node passes through two stages before its slot is used again. It is retired until a
new reader epoch begins, then sealed until the last reader of the old epoch has left. Slots become
free in the order in which they are reclaimed, and the last one to become free is the first to be
used. A writer that goes away leaves its unlinked nodes to the list as orphans, to be drained
when no reader is left either.

Each stage is a chain, and what moves from stage to stage is the chain as a whole or one slot
after another. No chain has more slots than were handed out; that number is the fuel of the loops.
-/

namespace JitIndex.SkipList

universe u

variable {α : Type u}

/-- Whether nodes are waiting for a new reader epoch. -/
def hasRetired (l : SkipList α) : Bool := l.retired.isSome

/-- Whether nodes are waiting for the readers of an old epoch. -/
def hasSealed (l : SkipList α) : Bool := l.sealed.isSome

/-- A new reader epoch began: no reader from now on comes upon a retired node. Nodes sealed
earlier must have been reclaimed. -/
def sealRetired (l : SkipList α) : SkipList α := { l with sealed := l.retired, retired := none }

/-- Frees the first sealed slots, at most so many. The answer is what they held. -/
def reclaimSome (l : SkipList α) : Nat → List (Entry α) × SkipList α
  | 0 => ([], l)
  | fuel + 1 =>
    match l.sealed with
    | none => ([], l)
    | some id =>
      match l.node? id with
      | none => ([], l)
      | some n =>
        let freed := { l.setNext (some id) 0 l.free with sealed := n.parked, free := some id }
        let (rest, l) := freed.reclaimSome fuel
        (⟨id, n.key, n.payload⟩ :: rest, l)

/-- Frees every sealed slot. The answer is what the slots held, in the order of their release. -/
def reclaim (l : SkipList α) : List (Entry α) × SkipList α := l.reclaimSome l.used

/-- Moves the slots of a chain to the orphans one by one, at most so many. -/
def strand (l : SkipList α) : Nat → Option SlotId → SkipList α
  | 0, _ => l
  | _ + 1, none => l
  | fuel + 1, some id =>
    match l.node? id with
    | none => l
    | some n => ({ l.setParked id l.orphans with orphans := some id }).strand fuel n.parked

/-- Leaves every unlinked slot to the list, the sealed ones first. -/
def orphan (l : SkipList α) : SkipList α :=
  (({ l with sealed := none, retired := none }).strand l.used l.sealed).strand l.used l.retired

/-- What the slots of a chain hold, in order, at most so many. -/
def contentsFrom (l : SkipList α) : Nat → Option SlotId → List (Entry α)
  | 0, _ => []
  | _ + 1, none => []
  | fuel + 1, some id =>
    match l.node? id with
    | none => []
    | some n => ⟨id, n.key, n.payload⟩ :: l.contentsFrom fuel n.parked

/-- Lets go of every orphan. The answer is what they held, in the order of their release. -/
def drain (l : SkipList α) : List (Entry α) × SkipList α :=
  (l.contentsFrom l.used l.orphans, { l with orphans := none })

def dispose (l : SkipList α) (host : Host) : Host := l.nodes.free host

end JitIndex.SkipList
