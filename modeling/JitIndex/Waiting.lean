import JitIndex.Journal

/-!
# Waiting

The writer waits by polling, and pauses between polls. A pause is a round of spin hints: one in
the first round, twice as many in every next one, up to 256. Rounds are counted in 32 bits and
stop at the greatest count. When the count reaches the warning threshold, a warning is due.

`Waitable.await` is the loop. What is waited for is a state that a poll may change and that may
change by itself while hints are issued; the loop ends when a poll yields something, or when the
given number of polls is used up.
-/

namespace JitIndex

universe u v

/-- How long the writer has been waiting. -/
structure Wait where
  rounds : UInt32 := 0
  /-- The logarithm of the number of hints in the next round. -/
  exponent : Nat := 0
  hints : Nat := 0
deriving DecidableEq

namespace Wait

/-- The logarithm of the most hints in a round. -/
def maxExponent : Nat := 8

def pause (w : Wait) : Wait :=
  { rounds := if w.rounds + 1 = 0 then w.rounds else w.rounds + 1
    exponent := min (w.exponent + 1) maxExponent
    hints := w.hints + 1 <<< w.exponent }

end Wait

/-- Something to wait for. -/
structure Waitable (σ : Type u) (β : Type v) where
  /-- Looks whether it is there. -/
  poll : σ → Option β × σ
  /-- What happens while the hints between two counts are issued. -/
  pass : Nat → Nat → σ → σ
  /-- Warns that it has taken so many rounds. -/
  warn : UInt32 → σ → σ

namespace Waitable

variable {σ : Type u} {β : Type v}

/-- What happens between two polls. -/
def round (t : Waitable σ β) (warnAfter : UInt32) (w : Wait) (s : σ) : Wait × σ :=
  let next := w.pause
  let s := t.pass w.hints next.hints s
  (next, if next.rounds = warnAfter then t.warn next.rounds s else s)

/-- Polls until a poll yields something, at most so often. -/
def await (t : Waitable σ β) (warnAfter : UInt32) : Nat → Wait → σ → Option β × Wait × σ
  | 0, w, s => (none, w, s)
  | polls + 1, w, s =>
    match t.poll s with
    | (some b, s) => (some b, w, s)
    | (none, s) =>
      let (w, s) := t.round warnAfter w s
      t.await warnAfter polls w s

end Waitable

/-- A wait for something that comes about at a known poll, watched by someone who writes down how
many hints were issued before each of the first polls. -/
structure Trial where
  /-- The poll that yields. -/
  goal : Nat
  polls : Nat := 0
  hints : Nat := 0
  /-- Hints before each of the first polls. -/
  noted : Array Nat := #[]
  host : Host

namespace Trial

/-- For how many polls hints are written down. -/
def watched : Nat := 16

/-- The wait of a trial: the value of a poll is its number. -/
def waitable : Waitable Trial Nat where
  poll t :=
    let polls := t.polls + 1
    let noted := if t.polls < watched then t.noted.push t.hints else t.noted
    (if t.goal ≤ polls then some polls else none, { t with polls, noted })
  pass _ issued t := { t with hints := issued }
  warn rounds t := { t with host := t.host.note (.waiting rounds) }

/-- Waits for a poll that succeeds at call `goal`, or at the first one if that is 0. -/
def run (warnAfter : UInt32) (goal : Nat) : Option Nat × Wait × Trial :=
  waitable.await warnAfter (max goal 1) {} { goal, host := { allocator := .generous } }

end Trial

end JitIndex
