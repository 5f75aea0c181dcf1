import JitIndex.Session.Handles
import JitIndex.Waiting

/-!
# Carrying out commands

`Session.step` carries out one command and `Session.run` any number of them. A command that goes
through a handle that does not exist changes nothing.
-/

namespace JitIndex.Session

/-! ## Reading -/

/-- A code region and its frames at an address. -/
def withFrames (a : Addr) (region : Option CodeRegion) : Reply :=
  .code (region.map fun r => (r, r.framesAt a))

/-- What a reading comes to. -/
def replyOf {β : Type} (answer : Except Failure β) (f : β → Reply) : Reply :=
  match answer with
  | .ok b => f b
  | .error e => .failed e

def stepReader (s : Session) (n : Nat) : ReaderCommand → Reply × Session
  | .traceback a =>
    let (answer, index) := s.index.traceback a
    (replyOf answer .frames, { s with index })
  | .depthAt a =>
    let (answer, index) := s.index.depthAt a
    (replyOf answer .depth, { s with index })
  | .isOpen => (.flag s.index.gate.isOpen, s)
  | .text =>
    (.text (Text.partialRecord "CodeMapReader" [("invalid", toString s.index.gate.isOpen)]), s)
  | .clone =>
    let (n, s) := s.addReader
    (.number n, s)
  | .drop => (.done, s.dropReader n)
  | .pin =>
    let n := s.pins.size
    match s.takePin with
    | (true, s) => (.number n, s)
    | (false, s) => (.failed .invalidated, s)
  | .pinMany count =>
    let before := s.pins.size
    let s := s.takePins count
    (.number (s.pins.size - before), s)

def stepPin (s : Session) (n : Nat) (p : HeldPin) : PinCommand → Reply × Session
  | .find a => (withFrames a (s.index.codeAt? a), s)
  | .hold a =>
    let held := s.index.codeSlotAt? a
    (.flag held.isSome, { s with pins := s.pins.setIfInBounds n (some { p with held }) })
  | .held a => (withFrames a (p.held.bind s.index.codeIn?), s)
  | .firstCode => (.address s.index.firstCode?, s)
  | .codeRegions => (.codes s.index.codeRegions, s)
  | .depthRegions => (.depths s.index.depthRegions, s)
  | .depthAt a => (.depth ((s.index.depthRegionAt? a).map (·.depth)), s)
  | .depthRegionAt a => (.depthRegion (s.index.depthRegionAt? a), s)
  | .isCurrent => (.flag (s.index.isCurrent p.pin), s)
  | .text =>
    (.text (Text.partialRecord "Snapshot" [("consistent", toString (s.index.isCurrent p.pin))]), s)
  | .finish =>
    (if s.index.isCurrent p.pin then .accepted else .failed .invalidated, s.dropPin n)
  | .unpin => (.done, s.dropPin n)

/-! ## Writing -/

/-- What an attempt to register comes to. -/
def accepted (answer : Except Failure Unit) : Reply := replyOf answer fun _ => .accepted

/-- The recorder after a report. Where the frames at an address cannot be read, there are none. -/
def build (s : Session) (r : FrameRecorder) : BuildStep → FrameRecorder × Session
  | .report step => (r.step step, s)
  | .inheritAt a =>
    match s.index.traceback a with
    | (.ok frames, index) => (r.inherit frames, { s with index })
    | (.error _, index) => (r.inherit [], { s with index })

def buildAll (s : Session) (r : FrameRecorder) : List BuildStep → FrameRecorder × Session
  | [] => (r, s)
  | step :: rest =>
    let (r, s) := s.build r step
    s.buildAll r rest

/-- The code region that a row of regions has at a place: its one frame covers all of it. -/
def filledCode (span : Span) (n : Nat) : CodeRegion :=
  ⟨span, .ofDescriptors [⟨⟨n + 1⟩, 0, span.size.toNat, descriptorWords⟩]⟩

/-- The depth region that a row of regions has at a place: its depth is the place. -/
def filledDepth (span : Span) (n : Nat) : DepthRegion := ⟨span, UInt32.ofNat n⟩

/-- Registers a row of regions, from the `n`-th on, until one is refused; the answer is how many
were registered before that. -/
def fill (add : Index → Span → Nat → Except Failure Unit × Index) (stride : Addr) :
    Nat → Nat → Span → Index → Nat × Index
  | 0, n, _, ix => (n, ix)
  | count + 1, n, span, ix =>
    match add ix span n with
    | (.error _, ix) => (n, ix)
    | (.ok (), ix) => fill add stride count (n + 1) { span with start := span.start + stride } ix

/-- A removed region, waited for by a writer whose readers leave after `releaseAfter` hints. -/
def removal (id : SlotId) (releaseAfter : Nat) : Waitable Session OwnedTable where
  poll s :=
    let (table, index) := s.index.pollRemoval id
    (table, { s with index })
  pass before after s := if before < releaseAfter ∧ releaseAfter ≤ after then s.dropPins else s
  warn rounds s := { s with index := s.index.note (.waiting rounds) }

/-- Unregisters a code region and waits until its frame table can be handed back. Every round of
waiting issues a hint or more, so the readers have left after as many rounds as it takes hints. -/
def removeCode (s : Session) (start : Addr) (releaseAfter : Option Nat) : Reply × Session :=
  if (s.index.code.get? start).isNone then (.notRegistered, s)
  else if s.anyPin && releaseAfter.isNone then (.wouldBlock, s)
  else
    match s.index.unlinkCode start with
    | (none, index) => (.notRegistered, { s with index })
    | (some id, index) =>
      let hints := (releaseAfter.map (max 1)).getD 0
      match (removal id hints).await index.settings.warnAfter (hints + 1) {} { s with index } with
      | (none, _, s) => (.wouldBlock, s)
      | (some owned, wait, s) =>
        (.removed owned.table wait.hints, { s with index := s.index.note (.codeRemoved start) })

def stepWriter (s : Session) : WriterCommand → Reply × Session
  | .addCode region =>
    let (answer, index) := s.index.addCode region
    (accepted answer, { s with index })
  | .buildCode span steps =>
    let (r, s) := s.buildAll .empty steps
    match r.finish span.size.toNat with
    | .error f => (.failed f, s)
    | .ok table =>
      let (answer, index) := s.index.addCode ⟨span, table⟩
      (accepted answer, { s with index })
  | .fillCode first stride count =>
    let (n, index) :=
      fill (fun ix span n => ix.addCode (filledCode span n)) stride count 0 first s.index
    (.number n, { s with index })
  | .fillDepth first stride count =>
    let (n, index) :=
      fill (fun ix span n => ix.addDepth (filledDepth span n)) stride count 0 first s.index
    (.number n, { s with index })
  | .removeCode start releaseAfter => s.removeCode start releaseAfter
  | .addDepth region =>
    let (answer, index) := s.index.addDepth region
    (accepted answer, { s with index })
  | .clearDepths span =>
    let (n, index) := s.index.clearDepths span
    (.number n, { s with index })
  | .addDepthMap start stop changes =>
    let (answer, index) := s.index.addDepthMap start stop changes
    (accepted answer, { s with index })
  | .freeBlock start stop => (.done, { s with index := s.index.freeBlock start stop })
  | .clear => (.done, { s with index := s.index.clear })
  | .drop => (.done, s.dropWriter)
  | .settings => (.text s.index.settings.text, s)
  | .text => (.text s.index.text, s)
  | .newReader =>
    let (n, s) := s.addReader
    (.number n, s)

/-! ## Runs -/

def step (s : Session) : Command → Reply × Session
  | .reader n command => if s.hasReader n then s.stepReader n command else (.noSuchHandle, s)
  | .pin n command =>
    match s.pin? n with
    | none => (.noSuchHandle, s)
    | some p => s.stepPin n p command
  | .unpinAll => (.done, s.dropPins)
  | .writer command => if s.writer then s.stepWriter command else (.noWriter, s)

def run (s : Session) (cs : List Command) : Session := cs.foldl (fun s c => (s.step c).2) s

end JitIndex.Session
