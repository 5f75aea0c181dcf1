import JitIndex.Slot.Pool
import JitIndex.SkipList.Height

/-!
# Skip lists

A skip list is a pool of nodes that are linked, by slot id, in up to sixteen lists: level 0 runs
through all of them in the order of their keys, and every level above runs through those that are
taller. It has a single writer, which also keeps track of the slots that are not linked:

* the *free* ones may be used for new nodes;
* the *retired* ones were unlinked, and readers may still be standing on them. An unlinked node
  keeps its own links, so such a reader finds its way back into the list;
* the *sealed* ones were retired before the current reader epoch began;
* the *orphans* were left behind by a writer that went away.

Unlinked slots that are parked together form a chain through a field of their nodes, which leaves
their links alone; the free ones form a chain through their links on level 0, which no reader
follows any more.

Links hang off sites: the head of the list, which comes before every key, and the slots. A link
may be stale, and is read for what it is.
-/

namespace JitIndex

universe u

/-- The links of a node, one per level. -/
abbrev Links := Vector (Option SlotId) maxHeight

def Links.none : Links := Vector.replicate maxHeight Option.none

def Links.next (links : Links) (level : Nat) : Option SlotId := links[level]?.join

def Links.setNext (links : Links) (level : Nat) (target : Option SlotId) : Links :=
  links.setIfInBounds level target

structure Node (α : Type u) where
  key : Addr
  payload : α
  height : Nat
  links : Links
  /-- The slot that was parked before this one, on the same chain. -/
  parked : Option SlotId

def Node.blank {α : Type u} [Inhabited α] : Node α := ⟨0, default, 0, .none, Option.none⟩

/-- A place that links hang off: the head of the list, or a slot. -/
abbrev Site := Option SlotId

/-- A skip list, with what its writer needs to know. -/
structure SkipList (α : Type u) where
  head : Links := .none
  nodes : Pool (Node α) := .empty
  /-- The number of slots handed out so far. -/
  used : Nat := 0
  /-- The slot that is used next, first on the chain of the free ones. -/
  free : Option SlotId := none
  /-- The slot unlinked last in this reader epoch, first on their chain. -/
  retired : Option SlotId := none
  /-- The slot unlinked last before this reader epoch, first on their chain. -/
  sealed : Option SlotId := none
  /-- The first slot on the chain of those that a writer left behind unlinked. -/
  orphans : Option SlotId := none
  count : Nat := 0
  heights : HeightSource

namespace SkipList

variable {α : Type u}

/-- An empty list whose heights are fixed by a seed. -/
def ofSeed (seed : UInt64) : SkipList α := { heights := .ofSeed seed }

def node? (l : SkipList α) (id : SlotId) : Option (Node α) := l.nodes.get? id

/-- The links that hang off a site. -/
def linksAt (l : SkipList α) : Site → Links
  | none => l.head
  | some id => ((l.node? id).map Node.links).getD .none

/-- Where the link at a site and a level leads. -/
def next (l : SkipList α) (site : Site) (level : Nat) : Option SlotId := (l.linksAt site).next level

/-- Changes where the link at a site and a level leads. -/
def setNext (l : SkipList α) (site : Site) (level : Nat) (target : Option SlotId) : SkipList α :=
  match site with
  | none => { l with head := l.head.setNext level target }
  | some id =>
    { l with
      nodes := l.nodes.modify id fun n => { n with links := n.links.setNext level target } }

/-- The slot that comes after a parked one, on the same chain. -/
def parkedAfter (l : SkipList α) (id : SlotId) : Option SlotId := (l.node? id).bind Node.parked

/-- Changes which slot comes after a parked one. -/
def setParked (l : SkipList α) (id : SlotId) (target : Option SlotId) : SkipList α :=
  { l with nodes := l.nodes.modify id fun n => { n with parked := target } }

/-- A node as it stands in the list. -/
structure Entry (α : Type u) where
  id : SlotId
  key : Addr
  payload : α
deriving DecidableEq

def entry? (l : SkipList α) (id : SlotId) : Option (Entry α) :=
  (l.node? id).map fun n => ⟨id, n.key, n.payload⟩

/-- The entry that the link at a site and a level leads to. -/
def entryAfter (l : SkipList α) (site : Site) (level : Nat) : Option (Entry α) :=
  (l.next site level).bind l.entry?

end SkipList

end JitIndex
