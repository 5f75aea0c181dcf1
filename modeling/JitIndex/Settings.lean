import JitIndex.Text

/-!
# Settings

An index has two settings: the seed of its node heights, which makes layouts reproducible, and the
number of rounds that a removal waits for readers before it warns.
-/

namespace JitIndex

structure Settings where
  /-- The seed of the node heights. -/
  seed : UInt64 := 0x9e3779b97f4a7c15
  /-- The number of rounds a removal waits before it warns. -/
  warnAfter : UInt32 := 65536
deriving DecidableEq, Inhabited

namespace Settings

/-- The seed of the depth regions' heights: the halves of the seed change places, so that the two
lists of an index are not laid out alike. -/
def depthSeed (s : Settings) : UInt64 := (s.seed <<< 32) ||| (s.seed >>> 32)

def text (s : Settings) : String :=
  Text.record "Config" [("seed", toString s.seed.toNat),
    ("grace_period_warn_after", toString s.warnAfter.toNat)]

end Settings

end JitIndex
