import JitIndex.Slot.Pool

/-!
# Using a pool of words

A session is one user of a pool and its host. The user makes sure that slots exist, reads them and
writes them, in any order; what came of it is the reply to each command and the journal.
-/

namespace JitIndex

/-- A pool of words with its host. -/
structure PoolSession where
  pool : Pool UInt64
  host : Host

namespace PoolSession

/-- What a user asks of a pool. -/
inductive Command where
  /-- Make sure that a slot exists. Slots that come into being hold consecutive words. -/
  | ensure (id : SlotId) (first : UInt64)
  | get (id : SlotId)
  | set (id : SlotId) (value : UInt64)

inductive Reply where
  /-- The slot exists; so many slots came into being for it. -/
  | ensured (slots : Nat)
  | failed (f : Failure)
  /-- The value in a slot, before a write if it was one. -/
  | value (v : Option UInt64)
deriving DecidableEq

def start (allocator : Allocator) : PoolSession := ⟨.empty, { allocator }⟩

def step (s : PoolSession) : Command → Reply × PoolSession
  | .ensure id first =>
    match s.pool.ensure s.host id fun i => first + UInt64.ofNat i with
    | (.ok slots, pool, host) => (.ensured slots, { pool, host })
    | (.error f, pool, host) => (.failed f, { pool, host })
  | .get id => (.value (s.pool.get? id), s)
  | .set id v => (.value (s.pool.get? id), { s with pool := s.pool.modify id fun _ => v })

def run (s : PoolSession) (cs : List Command) : PoolSession := cs.foldl (fun s c => (s.step c).2) s

def close (s : PoolSession) : PoolSession := { pool := .empty, host := s.pool.free s.host }

end PoolSession

end JitIndex
