import JitIndex.Failure
import JitIndex.Frame.Recorder
import JitIndex.Region

/-!
# What is asked of an index, and what comes of it

The users of an index hold handles: one writer, any number of readers, and any number of pins,
each taken through a reader. Readers and pins are numbered in the order in which they came about,
and a number is never used again. A command names the handle it goes through, and its reply is what
the user of that handle learns.
-/

namespace JitIndex

/-- A report to the recorder of a block that is about to be registered. -/
inductive BuildStep where
  | report (step : FrameRecorder.Step)
  /-- The block continues code at an address, with the frames that are active there. -/
  | inheritAt (a : Addr)

/-- What is asked through a reader. -/
inductive ReaderCommand where
  | traceback (a : Addr)
  | depthAt (a : Addr)
  | isOpen
  | text
  | clone
  | drop
  | pin
  /-- So many attempts to take a pin. -/
  | pinMany (count : Nat)

/-- What is asked through a pin. -/
inductive PinCommand where
  | find (a : Addr)
  /-- The code region that covers an address is kept at hand, in place of the one kept before. -/
  | hold (a : Addr)
  /-- The code region at hand, and its frames at an address. -/
  | held (a : Addr)
  | firstCode
  | codeRegions
  | depthRegions
  /-- The stack depth at an address, consistent or not. -/
  | depthAt (a : Addr)
  | depthRegionAt (a : Addr)
  /-- Whether what was seen is consistent. -/
  | isCurrent
  | text
  /-- The pin goes away, and says whether what was seen is consistent. -/
  | finish
  | unpin

/-- What is asked through the writer. -/
inductive WriterCommand where
  | addCode (region : CodeRegion)
  /-- Record the frames of a block, and register it. -/
  | buildCode (span : Span) (steps : List BuildStep)
  /-- Register `count` code regions of one size, each `stride` after the one before it. -/
  | fillCode (first : Span) (stride : Addr) (count : Nat)
  /-- Register `count` depth regions of one size, each `stride` after the one before it. -/
  | fillDepth (first : Span) (stride : Addr) (count : Nat)
  /-- Unregister a code region and wait for its frame table. All pins are released when the given
  number of spin hints has been issued, or one if it is 0; without a number they never are. -/
  | removeCode (start : Addr) (releaseAfter : Option Nat)
  | addDepth (region : DepthRegion)
  | clearDepths (span : Span)
  /-- Register the stack depths of a block. -/
  | addDepthMap (start stop : Addr) (changes : List (Addr × UInt32))
  | freeBlock (start stop : Addr)
  | clear
  | drop
  | settings
  | text
  | newReader

/-- A command, and the handle it goes through. -/
inductive Command where
  | reader (reader : Nat) (command : ReaderCommand)
  | pin (pin : Nat) (command : PinCommand)
  | unpinAll
  | writer (command : WriterCommand)

/-- What comes of a command. -/
inductive Reply where
  | done
  | accepted
  | failed (f : Failure)
  /-- It would have to wait for readers that do not leave, and was not done. -/
  | wouldBlock
  | noWriter
  | noSuchHandle
  /-- How many, or the number of a new handle. -/
  | number (n : Nat)
  | flag (b : Bool)
  | text (s : String)
  /-- Frames, outermost first. -/
  | frames (fs : List FrameId)
  | depth (d : Option UInt32)
  | address (a : Option Addr)
  /-- A code region, if there is one, and its frames at the address in question. -/
  | code (region : Option (CodeRegion × List FrameId))
  | codes (regions : List CodeRegion)
  | depthRegion (region : Option DepthRegion)
  | depths (regions : List DepthRegion)
  /-- The frame table of the region that was unregistered, and the spin hints issued meanwhile. -/
  | removed (table : FrameTable) (hints : Nat)
  | notRegistered

end JitIndex
