import JitIndex.SkipList.Basic

/-!
# Searching a skip list

A search starts at the head on the highest level, follows the level for as long as the keys pass a
test, and goes on one level below from where it stopped. The test is a bound on the key, so keys
that pass come before those that fail, and no level passes by more nodes than there are slots in
use; that number is the fuel of a level.

`floor?` stops at the last node whose key is at most the one looked for, `predecessors` notes on
every level the last site before that key, and a `Cursor` walks along level 0.
-/

namespace JitIndex.SkipList

universe u

variable {α : Type u}

/-- The last site on a level, from a site on, before the first node whose key fails the test. -/
def follow (l : SkipList α) (passes : Addr → Bool) (level : Nat) : Nat → Site → Site
  | 0, site => site
  | fuel + 1, site =>
    match l.entryAfter site level with
    | none => site
    | some e => if passes e.key then l.follow passes level fuel (some e.id) else site

/-- The site where a search through the levels below a given one ends. -/
def descend (l : SkipList α) (passes : Addr → Bool) : Nat → Site → Site
  | 0, site => site
  | level + 1, site => l.descend passes level (l.follow passes level l.used site)

/-- The sites where a search leaves the levels below a given one, level 0 first, in front of those
where it left the levels above. -/
def trail (l : SkipList α) (passes : Addr → Bool) : Nat → Site → List Site → List Site
  | 0, _, above => above
  | level + 1, site, above =>
    let left := l.follow passes level l.used site
    l.trail passes level left (left :: above)

/-- The entry with the greatest key that is at most `key`. -/
def floor? (l : SkipList α) (key : Addr) : Option (Entry α) :=
  (l.descend (· ≤ key) maxHeight none).bind l.entry?

def get? (l : SkipList α) (key : Addr) : Option (Entry α) :=
  (l.floor? key).filter fun e => e.key == key

def first? (l : SkipList α) : Option (Entry α) := l.entryAfter none 0

/-- For every level, from level 0 on, the last site before `key`. -/
def predecessors (l : SkipList α) (key : Addr) : List Site := l.trail (· < key) maxHeight none []

/-- An iteration, stopped before a slot or at the end. -/
structure Cursor where
  upcoming : Option SlotId
deriving DecidableEq

/-- The iteration that begins with the first entry. -/
def cursor (l : SkipList α) : Cursor := ⟨l.next none 0⟩

/-- The entry that an iteration has come to, and the iteration after it. -/
def advance? (l : SkipList α) (c : Cursor) : Option (Entry α × Cursor) :=
  (c.upcoming.bind l.entry?).map fun e => (e, ⟨l.next (some e.id) 0⟩)

/-- The entries that an iteration comes to in at most `fuel` steps. -/
def entriesFrom (l : SkipList α) : Nat → Cursor → List (Entry α)
  | 0, _ => []
  | fuel + 1, c =>
    match l.advance? c with
    | none => []
    | some (e, c) => e :: l.entriesFrom fuel c

def entries (l : SkipList α) : List (Entry α) := l.entriesFrom l.used l.cursor

end JitIndex.SkipList
