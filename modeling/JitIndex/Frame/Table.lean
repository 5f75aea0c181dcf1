import JitIndex.Text

/-!
# Frame tables

A block of machine code executes on behalf of nested logical frames: a function, and what was
inlined into it. A frame table lists them as a flat sequence of words, four to a descriptor:
the frame, the offsets where it starts and stops, and the word index of the first descriptor
that is not inlined into it. The descriptors of a frame's callees follow it directly, so the
last word lets a search jump over everything inlined into a frame that does not matter.

A table may come from anywhere and need not be well formed; see `JitIndex.Frame.Walk` for what
is read out of it regardless.
-/

namespace JitIndex

/-- A logical call frame, named by an opaque number that its owner chose. -/
structure FrameId where
  raw : Nat
deriving DecidableEq, Inhabited

namespace FrameId

instance : Ord FrameId := ⟨fun a b => compare a.raw b.raw⟩

def text (f : FrameId) : String := "FrameId(" ++ toString f.raw ++ ")"

end FrameId

/-- How many words describe one frame. -/
def descriptorWords : Nat := 4

/-- One frame of a table: it covers the offsets from `start` up to, not including, `stop`, and
the first descriptor that is not inlined into it is at word `skip`. -/
structure Descriptor where
  frame : FrameId
  start : Nat
  stop : Nat
  skip : Nat
deriving DecidableEq, Inhabited

def Descriptor.words (d : Descriptor) : List Nat := [d.frame.raw, d.start, d.stop, d.skip]

/-- The nested frames of a block of code, as a flat list of words. -/
structure FrameTable where
  words : Array Nat
deriving DecidableEq, Inhabited

namespace FrameTable

def ofDescriptors (ds : List Descriptor) : FrameTable := ⟨(ds.flatMap Descriptor.words).toArray⟩

def size (t : FrameTable) : Nat := t.words.size

/-- Words cut into descriptors; what is left over at the end stands alone. -/
def chunks : List Nat → List (List Nat)
  | a :: b :: c :: d :: rest => [a, b, c, d] :: chunks rest
  | [] => []
  | rest => [rest]

/-- The table as text, one list per descriptor. -/
def text (t : FrameTable) : String := Text.list ((chunks t.words.toList).map Text.numbers)

def flatText (t : FrameTable) : String := Text.numbers t.words.toList

end FrameTable

end JitIndex
