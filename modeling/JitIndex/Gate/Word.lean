import JitIndex.Epoch

/-!
# The gate between the writer and its readers

Everything that readers and the writer have to agree on fits into one 64-bit word, so that each of
their moves is one change to one word:

| bits  | field                                             |
|-------|---------------------------------------------------|
| 0     | whether a mutation is open                         |
| 1     | the current epoch                                  |
| 2-17  | how many readers are pinned in epoch 0             |
| 18-33 | how many readers are pinned in epoch 1             |
| 34-63 | the generation: how many mutations ended so far    |

A reader pins itself to the current epoch, unless a mutation is open or the epoch is full, and
remembers the version: the open flag and the generation. What it read is consistent if the version
is still the same when it is done. The writer turns the epoch after it has unlinked something;
readers that pin themselves later cannot come upon it, so it can be released as soon as the old
epoch has drained.
-/

namespace JitIndex

/-- The state shared by the writer and its readers. -/
structure Gate where
  word : UInt64
deriving DecidableEq, Inhabited

namespace Gate

def initial : Gate := ⟨0⟩

def openBit : UInt64 := 1

def epochBit : UInt64 := 2

/-- The most readers that fit into an epoch, and the mask of a reader count. -/
def readerLimit : UInt64 := 0xffff

/-- Where the reader count of an epoch starts. -/
def readerShift (e : Epoch) : UInt64 := if e = 0 then 2 else 18

def oneReader (e : Epoch) : UInt64 := (1 : UInt64) <<< readerShift e

def generationShift : UInt64 := 34

def oneGeneration : UInt64 := (1 : UInt64) <<< generationShift

/-- The bits of the version: the open flag and the generation. -/
def versionMask : UInt64 := openBit ||| ~~~(oneGeneration - 1)

def isOpen (g : Gate) : Bool := g.word &&& openBit != 0

def epoch (g : Gate) : Epoch := if g.word &&& epochBit = 0 then 0 else 1

def readers (g : Gate) (e : Epoch) : UInt64 := (g.word >>> readerShift e) &&& readerLimit

/-- How many mutations ended so far, modulo 2 ^ 30. -/
def generation (g : Gate) : UInt64 := g.word >>> generationShift

/-- What a reader compares to know whether a mutation came between. -/
def version (g : Gate) : UInt64 := g.word &&& versionMask

/-- A mutation begins. None may be open. -/
def beginMutation (g : Gate) : Gate := ⟨g.word ||| openBit⟩

/-- The open mutation ends: the flag falls, and the generation rises. -/
def endMutation (g : Gate) : Gate := ⟨g.word + (oneGeneration - openBit)⟩

/-- A reader's membership in an epoch, and the version it found there. -/
structure Pin where
  epoch : Epoch
  version : UInt64
deriving DecidableEq

/-- A reader pins itself, unless a mutation is open or the epoch is full. -/
def pin? (g : Gate) : Option (Pin × Gate) :=
  if g.isOpen || g.readers g.epoch == readerLimit then none
  else some (⟨g.epoch, g.version⟩, ⟨g.word + oneReader g.epoch⟩)

def unpin (g : Gate) (p : Pin) : Gate := ⟨g.word - oneReader p.epoch⟩

/-- Whether no mutation has begun since a reader pinned itself. -/
def isCurrent (g : Gate) (p : Pin) : Bool := g.version == p.version

def hasDrained (g : Gate) (e : Epoch) : Bool := g.readers e == 0

/-- A new epoch begins. The one it turns into must have drained. -/
def turn (g : Gate) : Gate := ⟨g.word ^^^ epochBit⟩

end Gate

end JitIndex
