import JitIndex.Index.Read
import JitIndex.Index.Write
import JitIndex.Session.Command

/-!
# The handles of an index

A session is an index together with the handles on it. The index lives as long as there is one:
when the last handle goes away, the tables still left to the index are dropped and its memory is
given back.

A pin may keep a code region at hand. It keeps the slot, not a copy: what it reads there later
is what the slot holds then, and that it is still the same region is the doing of the index.
-/

namespace JitIndex

/-- A pin, and the slot of the code region that it keeps at hand. -/
structure HeldPin where
  pin : Gate.Pin
  held : Option SlotId := none

/-- An index and the handles on it. -/
structure Session where
  index : Index
  writer : Bool := true
  /-- Which readers there are. -/
  readers : Array Bool := #[true]
  /-- The pins, in the order they were taken; one that is gone leaves its place empty. -/
  pins : Array (Option HeldPin) := #[]
  /-- Whether the index is gone. -/
  disposed : Bool := false

namespace Session

/-- An empty index with a writer and a reader. -/
def start (settings : Settings) (allocator : Allocator) : Session :=
  { index := .empty settings allocator }

def hasReader (s : Session) (n : Nat) : Bool := s.readers.getD n false

/-- The pin with a number, if it is live. -/
def pin? (s : Session) (n : Nat) : Option HeldPin := s.pins[n]?.join

def anyPin (s : Session) : Bool := s.pins.any Option.isSome

def anyHandle (s : Session) : Bool := s.writer || s.readers.any id || s.anyPin

/-- Lets go of the index if there is no handle any more. -/
def settle (s : Session) : Session :=
  if s.anyHandle || s.disposed then s else { s with index := s.index.dispose, disposed := true }

/-- How many code regions and depth regions the writer counts. -/
def counts? (s : Session) : Option (Nat × Nat) :=
  if s.writer then some (s.index.code.count, s.index.depth.count) else none

/-- Adds a reader; the answer is its number. -/
def addReader (s : Session) : Nat × Session :=
  (s.readers.size, { s with readers := s.readers.push true })

def dropReader (s : Session) (n : Nat) : Session :=
  { s with readers := s.readers.setIfInBounds n false }.settle

/-- Takes a pin, if the gate lets a reader in; the answer is whether it did. -/
def takePin (s : Session) : Bool × Session :=
  match s.index.pin? with
  | none => (false, s)
  | some (pin, index) => (true, { s with index, pins := s.pins.push (some { pin }) })

/-- So many attempts to take a pin, one after the other. -/
def takePins (s : Session) : Nat → Session
  | 0 => s
  | count + 1 => s.takePin.2.takePins count

def dropPin (s : Session) (n : Nat) : Session :=
  match s.pin? n with
  | none => s
  | some p =>
    { s with index := s.index.unpin p.pin, pins := s.pins.setIfInBounds n none }.settle

/-- The index after the reader behind a pin left, if it had not before. -/
def release (ix : Index) : Option HeldPin → Index
  | none => ix
  | some p => ix.unpin p.pin

def dropPins (s : Session) : Session :=
  { s with
    index := s.pins.foldl release s.index
    pins := s.pins.map fun _ => none }.settle

def dropWriter (s : Session) : Session :=
  if s.writer then { s with index := s.index.closeWriter, writer := false }.settle else s

/-- Every handle goes away: the writer, the pins, the readers. -/
def close (s : Session) : Session :=
  let s := s.dropWriter.dropPins
  { s with readers := s.readers.map fun _ => false }.settle

end Session

end JitIndex
