import JitIndex.Failure
import JitIndex.Gate.Word
import JitIndex.Journal

/-!
# Using a gate

A session plays the writer and all readers of one gate. It remembers whether a mutation is open
and which pins are live, so that only an open mutation is ended and only a live pin is released.
Turning into an epoch that still has readers breaks an assumption, but the epoch turns all the
same.
-/

namespace JitIndex

/-- A gate, the open mutation if there is one, and the pins in the order they were taken. -/
structure GateSession where
  gate : Gate := .initial
  mutating : Bool := false
  pins : Array (Option Gate.Pin) := #[]

namespace GateSession

/-- What the writer and the readers do. -/
inductive Command where
  | beginMutation
  | endMutation
  | pin
  /-- So many readers try to pin themselves. -/
  | pinMany (count : Nat)
  /-- A reader asks whether what it read is consistent. -/
  | isCurrent (pin : Nat)
  | unpin (pin : Nat)
  | unpinAll
  | turn

inductive Reply where
  | done
  /-- A number: of a new pin, or of pins taken. -/
  | number (n : Nat)
  | flag (b : Bool)
  | ended (e : Epoch)
  | failed (f : Failure)
  | fault (f : Fault)
  /-- The mutation or the pin does not exist. -/
  | noSuchHandle
deriving DecidableEq

/-- The pin with a number, if it is live. -/
def pin? (s : GateSession) (n : Nat) : Option Gate.Pin := s.pins[n]?.join

/-- A reader pins itself; the answer is whether it could. -/
def takePin (s : GateSession) : Bool × GateSession :=
  match s.gate.pin? with
  | none => (false, s)
  | some (p, gate) => (true, { s with gate, pins := s.pins.push (some p) })

/-- So many readers try to pin themselves, one after the other. -/
def takePins (s : GateSession) : Nat → GateSession
  | 0 => s
  | count + 1 => s.takePin.2.takePins count

def releaseAll (s : GateSession) : GateSession :=
  { s with
    gate := s.pins.foldl (fun g p => p.elim g g.unpin) s.gate
    pins := s.pins.map fun _ => none }

def step (s : GateSession) : Command → Reply × GateSession
  | .beginMutation =>
    if s.gate.isOpen then (.fault .nestedMutation, s)
    else (.done, { s with gate := s.gate.beginMutation, mutating := true })
  | .endMutation =>
    if s.mutating then (.done, { s with gate := s.gate.endMutation, mutating := false })
    else (.noSuchHandle, s)
  | .pin =>
    let n := s.pins.size
    match s.takePin with
    | (true, s) => (.number n, s)
    | (false, s) => (.failed .invalidated, s)
  | .pinMany count =>
    let before := s.pins.size
    let s := s.takePins count
    (.number (s.pins.size - before), s)
  | .isCurrent n =>
    match s.pin? n with
    | none => (.noSuchHandle, s)
    | some p => (.flag (s.gate.isCurrent p), s)
  | .unpin n =>
    match s.pin? n with
    | none => (.noSuchHandle, s)
    | some p => (.done, { s with gate := s.gate.unpin p, pins := s.pins.setIfInBounds n none })
  | .unpinAll => (.done, s.releaseAll)
  | .turn =>
    let ended := s.gate.epoch
    let busy := !s.gate.hasDrained ended.other
    (if busy then .fault .busyEpoch else .ended ended, { s with gate := s.gate.turn })

def run (s : GateSession) (cs : List Command) : GateSession := cs.foldl (fun s c => (s.step c).2) s

end GateSession

end JitIndex
