import JitIndex.Failure
import JitIndex.Frame.Table

/-!
# Recording frame tables

While machine code is emitted, its emitter reports a merge point whenever the logical frame that
it emits code for may have changed: the inlining depth of that frame, the frame, and the offset
reached. A `FrameRecorder` turns these reports into a table. Going deeper opens a descriptor;
coming back up closes as many of the innermost open ones as the depth fell by. A descriptor is
closed exactly once, and learns its stop offset and its skip word then: the skip word is where
the table ends at that moment, just past everything inlined into the frame.

`finish` closes what is still open and refuses a table that its readers could not decode.
-/

namespace JitIndex

/-- A frame table in the making. -/
structure FrameRecorder where
  descriptors : Array Descriptor := #[]
  /-- The descriptors still open, by rank, the innermost first. -/
  openRanks : List Nat := []
  /-- The depth of the last merge point that counted. -/
  depth : Option Nat := none
deriving Inhabited

/-- A descriptor as it is opened: its stop offset and its skip word are not known yet. -/
def Descriptor.opened (frame : FrameId) (pos : Nat) : Descriptor := ⟨frame, pos, 0, 0⟩

/-- A descriptor that stops at `pos`, in a table that has `rank` descriptors by then. -/
def Descriptor.close (d : Descriptor) (pos rank : Nat) : Descriptor :=
  { d with stop := pos, skip := rank * descriptorWords }

/-- A descriptor that no reader could decode. -/
def Descriptor.isUnterminated (d : Descriptor) : Bool :=
  d.frame.raw == 0 || d.stop == 0 || d.skip == 0

namespace FrameRecorder

/-- The recorder of a block that begins with no frame open. -/
def empty : FrameRecorder := {}

def openFrame (r : FrameRecorder) (frame : FrameId) (pos : Nat) : FrameRecorder :=
  { r with
    descriptors := r.descriptors.push (.opened frame pos)
    openRanks := r.descriptors.size :: r.openRanks }

/-- Closes the innermost `count` open descriptors at `pos`, or all of them if there are fewer. -/
def closeInnermost (r : FrameRecorder) (count pos : Nat) : FrameRecorder :=
  { r with
    descriptors := (r.openRanks.take count).foldl
      (fun ds rank => ds.modify rank (·.close pos r.descriptors.size)) r.descriptors
    openRanks := r.openRanks.drop count }

/-- Code from `pos` on belongs to `frame`, at inlining depth `depth`. A merge point at the depth
of the last one changes nothing, nor does one for frame 0. -/
def merge (r : FrameRecorder) (depth : Nat) (frame : FrameId) (pos : Nat) : FrameRecorder :=
  if r.depth = some depth ∨ frame.raw = 0 then r
  else
    let moved :=
      match r.depth with
      | some last =>
        if depth < last then r.closeInnermost (last - depth) pos else r.openFrame frame pos
      | none => r.openFrame frame pos
    { moved with depth := some depth }

/-- The block continues code emitted elsewhere, with these frames, outermost first, open at
offset 0. -/
def inherit (r : FrameRecorder) (frames : List FrameId) : FrameRecorder :=
  let entered := frames.foldl (·.openFrame · 0) r
  { entered with depth := if frames.isEmpty then r.depth else some (frames.length - 1) }

def closeAll (r : FrameRecorder) (size : Nat) : FrameRecorder :=
  r.closeInnermost r.openRanks.length size

/-- The table of a block of `size` bytes. The first descriptor, in table order, that could not be
decoded is reported by its first word. -/
def finish (r : FrameRecorder) (size : Nat) : Except Failure FrameTable :=
  let ds := (r.closeAll size).descriptors
  match ds.findIdx? Descriptor.isUnterminated with
  | some rank => .error (.unterminated (rank * descriptorWords))
  | none => .ok (.ofDescriptors ds.toList)

inductive Step where
  | merge (depth : Nat) (frame : FrameId) (pos : Nat)
  /-- The frames open at the start of the block. -/
  | inherit (frames : List FrameId)

def step (r : FrameRecorder) : Step → FrameRecorder
  | .merge depth frame pos => r.merge depth frame pos
  | .inherit frames => r.inherit frames

def run (r : FrameRecorder) (steps : List Step) : FrameRecorder := steps.foldl step r

/-- The recorder as text. An open descriptor shows as the word of its stop offset, and what an
open descriptor does not know yet as 0. -/
def text (r : FrameRecorder) : String :=
  Text.record "FrameInfoBuilder"
    [("words", (FrameTable.ofDescriptors r.descriptors.toList).flatText),
     ("open", Text.numbers (r.openRanks.reverse.map fun rank => rank * descriptorWords + 2)),
     ("depth", Text.optional (r.depth.map toString))]

end FrameRecorder

end JitIndex
