import JitIndex.Region
import JitIndex.SkipList.Parking

/-!
# Using a skip list of plain records

A session is the single writer of a list whose payloads are words. It makes nodes and links them,
at once or later, unlinks them, and moves unlinked nodes along. Two things are not allowed: to link
a node that is not waiting to be linked, and to seal while sealed nodes are still there.
-/

namespace JitIndex

/-- An entry of plain words as text. -/
def SkipList.Entry.text (e : SkipList.Entry Payload) : String :=
  Text.partialRecord "Entry"
    [("id", toString e.id.val), ("key", Text.hex e.key.toNat),
     ("payload", Text.numbers (e.payload.words.map UInt64.toNat))]

/-- A list of plain records, its host, and the nodes made but not yet linked. -/
structure ListSession where
  list : SkipList Payload
  host : Host
  pending : List SlotId := []

namespace ListSession

/-- What a writer asks of a list. -/
inductive Command where
  /-- Make a node, to be linked later. -/
  | alloc (key : Addr) (payload : Payload)
  | link (id : Nat)
  /-- Make a node that holds its own key, and link it. -/
  | insert (key : Addr)
  /-- Insert `count` keys, each `stride` after the one before it. -/
  | insertMany (key stride : Addr) (count : Nat)
  | unlink (key : Addr)
  | unlinkAll
  | get (key : Addr)
  /-- Look up the greatest key that is at most the given one. -/
  | floor (key : Addr)
  | first
  | keys
  | sealRetired
  | reclaim
  /-- Leave the unlinked nodes to the list. -/
  | orphan
  /-- Let go of the orphans. -/
  | drain

/-- A node as it was made: its slot and its height. -/
structure Made where
  id : SlotId
  height : Nat
deriving DecidableEq

inductive Reply where
  | done
  | made (node : Made)
  /-- The node was made and linked, in the place of another one if there was one. -/
  | inserted (node : Made) (replaced : Option (SkipList.Entry Payload))
  /-- These nodes were made and linked; `complete` says whether they are all that were asked for. -/
  | series (nodes : List Made) (complete : Bool)
  /-- What the node held that was unlinked, if there was one. -/
  | unlinked (entry : Option (SkipList.Entry Payload))
  /-- What the nodes held that left a stage, in order. -/
  | released (entries : List (SkipList.Entry Payload))
  /-- What was found under a key. -/
  | found (entry : Option (SkipList.Entry Payload))
  /-- What was found at or below a key; the head of the list stands for nothing. -/
  | floor (entry : Option (SkipList.Entry Payload))
  | first (key : Option Addr)
  | keys (ks : List Addr)
  | failed (f : Failure)
  /-- The command broke an assumption of the list, and was not carried out. -/
  | fault (f : Fault)
  | noSuchNode
deriving DecidableEq

def start (seed : UInt64) (allocator : Allocator) : ListSession := ⟨.ofSeed seed, { allocator }, []⟩

/-- The payload of a node that holds its own key. -/
def selfPayload (key : Addr) : Payload := ⟨key, 0, 0⟩

/-- The node in a slot that was just filled in. -/
def made (l : SkipList Payload) (id : SlotId) : Made := ⟨id, ((l.node? id).map Node.height).getD 0⟩

/-- Makes a node and links it at once. -/
def insert (s : ListSession) (key : Addr) :
    Except Failure (Made × Option (SkipList.Entry Payload)) × ListSession :=
  match s.list.alloc s.host key (selfPayload key) with
  | (.error f, list, host) => (.error f, { s with list, host })
  | (.ok id, list, host) =>
    let node := made list id
    let (replaced, list) := list.link id
    (.ok (node, replaced), { s with list, host })

/-- Inserts keys at a stride, until one cannot be inserted. -/
def insertMany (s : ListSession) (key stride : Addr) :
    Nat → List Made × Bool × ListSession
  | 0 => ([], true, s)
  | count + 1 =>
    match s.insert key with
    | (.error _, s) => ([], false, s)
    | (.ok (node, _), s) =>
      let (nodes, complete, s) := s.insertMany (key + stride) stride count
      (node :: nodes, complete, s)

def step (s : ListSession) : Command → Reply × ListSession
  | .alloc key payload =>
    match s.list.alloc s.host key payload with
    | (.error f, list, host) => (.failed f, { s with list, host })
    | (.ok id, list, host) => (.made (made list id), { list, host, pending := id :: s.pending })
  | .link id =>
    match s.pending.find? fun p => p.val == id with
    | none => (.noSuchNode, s)
    | some id =>
      let (replaced, list) := s.list.link id
      (.unlinked replaced, { s with list, pending := s.pending.erase id })
  | .insert key =>
    match s.insert key with
    | (.error f, s) => (.failed f, s)
    | (.ok (node, replaced), s) => (.inserted node replaced, s)
  | .insertMany key stride count =>
    let (nodes, complete, s) := s.insertMany key stride count
    (.series nodes complete, s)
  | .unlink key =>
    let (entry, list) := s.list.unlink key
    (.unlinked entry, { s with list })
  | .unlinkAll =>
    let (entries, list) := s.list.unlinkAll
    (.released entries, { s with list })
  | .get key => (.found (s.list.get? key), s)
  | .floor key => (.floor (s.list.floor? key), s)
  | .first => (.first (s.list.first?.map (·.key)), s)
  | .keys => (.keys (s.list.entries.map (·.key)), s)
  | .sealRetired =>
    if s.list.hasSealed then (.fault .unreclaimed, s)
    else (.done, { s with list := s.list.sealRetired })
  | .reclaim =>
    let (entries, list) := s.list.reclaim
    (.released entries, { s with list })
  | .orphan => (.done, { s with list := s.list.orphan })
  | .drain =>
    let (entries, list) := s.list.drain
    (.released entries, { s with list })

def run (s : ListSession) (cs : List Command) : ListSession := cs.foldl (fun s c => (s.step c).2) s

def close (s : ListSession) : ListSession := { s with host := s.list.dispose s.host }

end ListSession

end JitIndex
