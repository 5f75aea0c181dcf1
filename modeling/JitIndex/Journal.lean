import JitIndex.Address
import JitIndex.Epoch
import JitIndex.Frame.Table
import JitIndex.Slot.Id

/-!
# The host of an index

An index takes the memory for its nodes from an allocator that may refuse, and it writes a
journal. The journal has an entry for everything that happens to something the index does not
own alone: memory and frame tables that change hands, mutations that readers have to know about,
and what its operators want to read in a log. It also has an entry for every assumption found
broken; those entries are there so that their absence can be proved.

Frame tables that change hands are numbered in the order in which the index takes them over, so
that two tables with the same words are still two tables.

`Host` is the allocator, the number of requests it has answered, and the journal.
-/

namespace JitIndex

/-- An assumption of the index about itself. -/
inductive Fault where
  /-- A mutation began while another was open. -/
  | nestedMutation
  /-- The epoch turned into one that still had readers. -/
  | busyEpoch
  /-- Nodes were sealed before those sealed earlier were reclaimed. -/
  | unreclaimed
  /-- A node replaced another one of a different key. -/
  | strayReplacement
  /-- A node was unlinked when none was counted as linked. -/
  | miscount
deriving DecidableEq

/-- A frame table in memory of its own, which has one owner at a time. -/
structure OwnedTable where
  /-- How many tables the index had taken over before this one. -/
  serial : Nat
  table : FrameTable
deriving DecidableEq, Inhabited

/-- One of the two lists of an index. -/
inductive Half where
  | code
  | depth
deriving DecidableEq

/-- Something the outside world may notice. -/
inductive Event where
  | granted (slots : Nat)
  | refused (slots : Nat)
  /-- Memory for a number of slots went back to the allocator. -/
  | freed (slots : Nat)
  | segmentAdded (segment slots : Nat)
  | heightDrawn (height : Nat)
  | codeAdded (span : Span)
  /-- A code region took the place of one with the same start. -/
  | codeReplaced (start : Addr)
  | codeRefused (span : Span)
  /-- A code region was handed back to its owner. -/
  | codeRemoved (start : Addr)
  /-- A depth region took the place of one with the same start. -/
  | depthReplaced (start : Addr)
  | depthRefused (span : Span)
  /-- A sweep removed the depth regions that start between two addresses. -/
  | depthsCleared (count : Nat) (start stop : Addr)
  /-- The index was emptied of a number of code regions. -/
  | indexCleared (count : Nat)
  /-- The readers of an epoch left, and a number of frame tables with them. -/
  | epochDrained (epoch : Epoch) (released : Nat)
  /-- The writer left before the readers of what it removed. -/
  | leftToReaders
  /-- The writer has been waiting for readers for a number of rounds. -/
  | waiting (rounds : UInt32)
  | mutationBegun
  | slotFilled (half : Half) (slot : SlotId)
  /-- The index took a frame table over from its owner. -/
  | tableTaken (table : OwnedTable)
  /-- The index dropped a frame table, which a slot had held unless its region was refused. -/
  | tableDropped (slot : Option SlotId) (table : OwnedTable)
  /-- The index handed the frame table of a slot back to its owner. -/
  | tableReturned (slot : SlotId) (table : OwnedTable)
  | fault (fault : Fault)
deriving DecidableEq

namespace Event

/-- Who an event is meant for. -/
inductive Channel where
  | memory
  /-- The shape of the skip lists. -/
  | shape
  | log
  /-- The books that are kept for proofs. -/
  | books
deriving DecidableEq

def channel : Event → Channel
  | granted _ | refused _ | freed _ => .memory
  | heightDrawn _ => .shape
  | mutationBegun | slotFilled .. | tableTaken _ | tableDropped .. | tableReturned .. | fault _ =>
    .books
  | _ => .log

/-- A log entry: its level and its text. -/
structure Line where
  level : String
  text : String
deriving DecidableEq

private def spanText (s : Span) : String :=
  Text.hex s.start.toNat ++ " (" ++ toString s.size.toNat ++ " bytes)"

/-- An event as a log entry; what only proofs look at has none. -/
def line? : Event → Option Line
  | granted slots => some ⟨"ALLOC", toString slots⟩
  | refused slots => some ⟨"REFUSE", toString slots⟩
  | freed slots => some ⟨"FREE", toString slots⟩
  | segmentAdded segment slots =>
    some ⟨"TRACE",
      "allocated arena segment " ++ toString segment ++ " (" ++ toString slots ++ " slots)"⟩
  | heightDrawn height => some ⟨"HEIGHT", toString height⟩
  | codeAdded span => some ⟨"TRACE", "registered code region " ++ spanText span⟩
  | codeReplaced start =>
    some ⟨"WARN", "code region " ++ Text.hex start.toNat ++ " was registered twice, replacing it"⟩
  | codeRefused span => some ⟨"DEBUG", "failed to register code region " ++ spanText span⟩
  | codeRemoved start => some ⟨"TRACE", "removed code region " ++ Text.hex start.toNat⟩
  | depthReplaced start =>
    some ⟨"DEBUG", "depth region " ++ Text.hex start.toNat ++ " was registered twice, replacing it"⟩
  | depthRefused span => some ⟨"DEBUG", "failed to register depth region " ++ spanText span⟩
  | depthsCleared count start stop =>
    some ⟨"TRACE", "cleared " ++ toString count ++ " depth regions in " ++ Text.hex start.toNat ++
      ".." ++ Text.hex stop.toNat⟩
  | indexCleared count =>
    some ⟨"DEBUG", "cleared code map, unlinked " ++ toString count ++ " code regions"⟩
  | epochDrained epoch released =>
    some ⟨"TRACE", "epoch " ++ toString epoch.val ++ " drained, released " ++ toString released ++
      " frame metadata buffers"⟩
  | leftToReaders =>
    some ⟨"DEBUG", "readers still pinned, leaving the unlinked code regions to them"⟩
  | waiting rounds =>
    some ⟨"WARN", "writer has been waiting " ++ toString rounds.toNat ++
      " rounds for readers to unpin"⟩
  | mutationBegun | slotFilled .. | tableTaken _ | tableDropped .. | tableReturned .. | fault _ =>
    none

end Event

/-- A source of memory: whether it refuses its n-th request, counted from 0, for a number of
slots. -/
structure Allocator where
  refuses : Nat → Nat → Bool

namespace Allocator

def generous : Allocator := ⟨fun _ _ => false⟩

/-- The allocator that grants at most `budget` requests, none of those listed, and never more
than `largest` slots at once. -/
def rationed (budget : Option Nat) (failing : List Nat) (largest : Nat) : Allocator :=
  ⟨fun request slots =>
    budget.any (· ≤ request) || failing.contains request || decide (largest < slots)⟩

end Allocator

/-- The allocator of an index, how often it was asked, and the journal, oldest entry first. -/
structure Host where
  allocator : Allocator
  requests : Nat := 0
  journal : Array Event := #[]

namespace Host

def note (h : Host) (e : Event) : Host := { h with journal := h.journal.push e }

def notes (h : Host) (es : List Event) : Host := es.foldl note h

/-- Records that an assumption is broken, unless it holds. -/
def check (h : Host) (holds : Bool) (f : Fault) : Host := if holds then h else h.note (.fault f)

/-- Asks the allocator for memory; the answer is whether it was granted. -/
def request (h : Host) (slots : Nat) : Bool × Host :=
  let refused := h.allocator.refuses h.requests slots
  let h := { h with requests := h.requests + 1 }
  (!refused, h.note (if refused then .refused slots else .granted slots))

/-- What the journal says on some channels, in order. -/
def lines (h : Host) (channels : List Event.Channel) : List Event.Line :=
  (h.journal.toList.filter fun e => channels.contains e.channel).filterMap Event.line?

def turnPage (h : Host) : Host := { h with journal := #[] }

end Host

end JitIndex
