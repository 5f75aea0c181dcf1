import JitIndex.SkipList.Search

/-!
# Changing a skip list

A node is made in two steps. `alloc` takes a slot and fills it in, and may fail; `link` puts the
node into the list on every level below its height, and cannot. A node that already has the key is
unlinked first. Unlinking takes a node out from its top level down to level 0 and parks its slot
with the retired ones.
-/

namespace JitIndex.SkipList

universe u

variable {α : Type u}

/-- Takes a slot for a new node: the one that became free last, or a fresh one. -/
def claim [Inhabited α] (l : SkipList α) (host : Host) :
    Except Failure SlotId × SkipList α × Host :=
  match l.free with
  | some id =>
    match l.node? id with
    | none => (.error .allocation, l, host)
    | some n => (.ok id, { l with free := n.links.next 0 }, host)
  | none =>
    match SlotId.nth? l.used with
    | none => (.error .allocation, l, host)
    | some id =>
      match l.nodes.ensure host id fun _ => .blank with
      | (.error f, nodes, host) => (.error f, { l with nodes }, host)
      | (.ok _, nodes, host) => (.ok id, { l with nodes, used := l.used + 1 }, host)

/-- Fills a slot in. Its links are left as they are until the node is linked. -/
def fill (l : SkipList α) (id : SlotId) (key : Addr) (payload : α) (height : Nat) : SkipList α :=
  { l with nodes := l.nodes.modify id fun n => { n with key, payload, height, parked := none } }

/-- Makes a node that is not linked yet, of a height drawn for it. -/
def alloc [Inhabited α] (l : SkipList α) (host : Host) (key : Addr) (payload : α) :
    Except Failure SlotId × SkipList α × Host :=
  match l.claim host with
  | (.error f, l, host) => (.error f, l, host)
  | (.ok id, l, host) =>
    let (height, heights) := l.heights.draw
    (.ok id, { l.fill id key payload height with heights }, host.note (.heightDrawn height))

/-- Puts a node behind a site on one level. -/
def spliceAt (l : SkipList α) (id : SlotId) (level : Nat) (site : Site) : SkipList α :=
  (l.setNext (some id) level (l.next site level)).setNext site level (some id)

/-- Puts a node behind one site per level, from a level on. -/
def splice (l : SkipList α) (id : SlotId) : Nat → List Site → SkipList α
  | _, [] => l
  | level, site :: above => (l.spliceAt id level site).splice id (level + 1) above

/-- Takes a node out of one level, if it is the one behind the site. -/
def detachAt (l : SkipList α) (id : SlotId) (level : Nat) (site : Site) : SkipList α :=
  if l.next site level = some id then l.setNext site level (l.next (some id) level) else l

/-- Takes a node out from behind one site per level, from a level on, the highest level first, so
that it leaves the fast levels before it leaves level 0. -/
def detach (l : SkipList α) (id : SlotId) : Nat → List Site → SkipList α
  | _, [] => l
  | level, site :: above => (l.detach id (level + 1) above).detachAt id level site

/-- Parks a slot that was just unlinked. -/
def retire (l : SkipList α) (id : SlotId) : SkipList α :=
  { l.setParked id l.retired with retired := some id, count := l.count - 1 }

/-- Unlinks the node with a key, given the sites before it. The answer is what the node held. -/
def unlinkBehind (l : SkipList α) (sites : List Site) (key : Addr) :
    Option (Entry α) × SkipList α :=
  let found := (sites.head?.bind fun site => l.entryAfter site 0).filter fun e => e.key == key
  match found with
  | none => (none, l)
  | some e =>
    let height := ((l.node? e.id).map Node.height).getD 0
    (some e, (l.detach e.id 0 (sites.take height)).retire e.id)

def unlink (l : SkipList α) (key : Addr) : Option (Entry α) × SkipList α :=
  l.unlinkBehind (l.predecessors key) key

/-- Links a node. The answer is what the node held that was linked under the same key. -/
def link (l : SkipList α) (id : SlotId) : Option (Entry α) × SkipList α :=
  match l.node? id with
  | none => (none, l)
  | some node =>
    let sites := l.predecessors node.key
    let (replaced, l) := l.unlinkBehind sites node.key
    let l := l.splice id 0 (sites.take node.height)
    (replaced, { l with count := l.count + 1 })

/-- Unlinks the node that a choice falls on, again and again for as long as it falls on one, and
gives what the nodes held, in order. -/
def unlinkWhile (l : SkipList α) (choice : SkipList α → Option (Entry α)) :
    Nat → List (Entry α) × SkipList α
  | 0 => ([], l)
  | fuel + 1 =>
    match choice l with
    | none => ([], l)
    | some e =>
      let (unlinked, l) := l.unlink e.key
      let (rest, l) := l.unlinkWhile choice fuel
      (unlinked.toList ++ rest, l)

def unlinkAll (l : SkipList α) : List (Entry α) × SkipList α := l.unlinkWhile first? l.count

/-- Unlinks every node with a key from `low` to `high`, the last one first. -/
def unlinkBetween (l : SkipList α) (low high : Addr) : List (Entry α) × SkipList α :=
  l.unlinkWhile (fun l => (l.floor? high).filter fun e => low ≤ e.key) l.count

end JitIndex.SkipList
