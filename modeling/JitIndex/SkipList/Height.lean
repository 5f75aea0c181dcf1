/-!
# Node heights

The height of a skip-list node is random: one in four nodes that reach a level reach the next one
too. Heights come from a small generator with 64 bits of state that is fixed by a seed, so that
a list is laid out the same way whenever it is built the same way. The state is never all zero at
the start, and a draw maps states one to one, so it never becomes all zero.
-/

namespace JitIndex

/-- The number of levels of a skip list. -/
def maxHeight : Nat := 16

/-- A state of the height generator: two words that are shifted into each other. -/
structure HeightSource where
  one : UInt32
  two : UInt32
deriving DecidableEq, Inhabited

namespace HeightSource

/-- The state that a seed stands for: its halves, the lower of which must not be zero. -/
def ofSeed (seed : UInt64) : HeightSource :=
  let low := seed.toUInt32
  { one := (seed >>> 32).toUInt32, two := if low = 0 then 1 else low }

/-- The state after a draw. -/
def advance (s : HeightSource) : HeightSource :=
  let x := s.one ^^^ (s.one <<< 17)
  { one := s.two, two := x ^^^ s.two ^^^ (x >>> 7) ^^^ (s.two >>> 16) }

/-- The number drawn by the step that led to a state. -/
def output (s : HeightSource) : UInt32 := s.one + s.two

/-- How many zero bits a word ends in, of the lowest `bits`. -/
def trailingZeros (w : UInt32) : Nat → Nat
  | 0 => 0
  | bits + 1 => if w &&& 1 = 0 then trailingZeros (w >>> 1) bits + 1 else 0

/-- The height that a number stands for: one more than its pairs of trailing zero bits. -/
def heightOf (w : UInt32) : Nat := min (trailingZeros w 32 / 2 + 1) maxHeight

/-- Draws a height. -/
def draw (s : HeightSource) : Nat × HeightSource := (heightOf s.advance.output, s.advance)

/-- A height is at least 1 and at most the number of levels. -/
theorem draw_bounds (s : HeightSource) : 1 ≤ s.draw.1 ∧ s.draw.1 ≤ maxHeight := by
  simp only [draw, heightOf, maxHeight]
  omega

end HeightSource

end JitIndex
