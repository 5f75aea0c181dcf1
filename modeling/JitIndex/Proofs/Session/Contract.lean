import JitIndex.Proofs.Index.Admitting
import JitIndex.Proofs.Registry
import JitIndex.Session.Step
import Mathlib.Data.Set.Card

/-!
# What a session owes to its users

A session is a machine over registries. `Registry.Step` says for every command
what it answers and what it makes of the registry; a look-up answers from the
registry and leaves it alone, and a writer's command is an update. A reader is
turned away exactly if his epoch is full, and a region is registered exactly if
there is room for it.

The frame tables that come with a command are `Session.offered`, the ones that
its user gets back `Session.handedBack`; and `Quiet` are the commands that
readers never notice.
-/

namespace JitIndex

open Session

namespace Session

/-- How many readers are pinned in the current epoch. -/
def crowd (s : Session) : Nat :=
  s.pins.toList.countP fun p => p.any fun p => p.pin.epoch == s.index.gate.epoch

/-- The frame table that a recorder makes of reports, or why it does not. -/
def recorded (s : Session) (span : Span) (steps : List BuildStep) : Except Failure FrameTable :=
  (s.buildAll .empty steps).1.finish span.size.toNat

/-- The tables that the index is offered by a command, given what it answers. -/
def offered (s : Session) : Command → Reply → List FrameTable
  | .writer (.addCode region), _ => if s.writer then [region.table] else []
  | .writer (.buildCode span steps), _ =>
    if s.writer then (s.recorded span steps).toOption.toList else []
  | .writer (.fillCode first stride count), .number n =>
    -- the first region that is refused brings a table, too
    ((Registry.row stride count 0 first).take (n + 1)).map fun place =>
      (filledCode place.1 place.2).table
  | _, _ => []

/-- The tables that the index hands back in answer to a command. -/
def handedBack (s : Session) : Command → Reply → List OwnedTable
  | .writer (.removeCode start _), .removed _ _ =>
    ((s.index.code.get? start).map fun e => e.payload.owned).toList
  | _, _ => []

end Session

namespace Registry

/-! ## Looking up -/

/-- What a reader is told. A look-up fails exactly if the current epoch is full of readers. -/
def AnswersReader (m : Registry) (s : Session) : ReaderCommand → Reply → Prop
  | .traceback a, reply =>
    (2 ^ 16 - 1 ≤ s.crowd ∧ reply = .failed .invalidated) ∨
      s.crowd < 2 ^ 16 - 1 ∧ ∃ found : Option CodeRegion,
        (∀ r, found = some r ↔ m.CoversCode a r) ∧
          reply = .frames ((found.map (·.framesAt a)).getD [])
  | .depthAt a, reply =>
    (2 ^ 16 - 1 ≤ s.crowd ∧ reply = .failed .invalidated) ∨
      s.crowd < 2 ^ 16 - 1 ∧ ∃ found : Option DepthRegion,
        (∀ r, found = some r ↔ m.CoversDepth a r) ∧ reply = .depth (found.map (·.depth))
  | _, _ => True

def AnswersPin (m : Registry) : PinCommand → Reply → Prop
  | .find a, reply =>
    ∃ found : Option CodeRegion, (∀ r, found = some r ↔ m.CoversCode a r) ∧
      reply = withFrames a found
  | .hold a, reply =>
    ∃ found : Option CodeRegion, (∀ r, found = some r ↔ m.CoversCode a r) ∧
      reply = .flag found.isSome
  | .firstCode, reply =>
    ∃ first, (∀ k, first = some k ↔ IsLeast {k | (m.code k).isSome} k) ∧ reply = .address first
  | .codeRegions, reply =>
    ∃ regions : List CodeRegion, (regions.Pairwise (fun r s => r.start < s.start) ∧
      ∀ r, r ∈ regions ↔ m.code r.start = some (r.size, r.table)) ∧ reply = .codes regions
  | .depthRegions, reply =>
    ∃ regions : List DepthRegion, (regions.Pairwise (fun r s => r.start < s.start) ∧
      ∀ r, r ∈ regions ↔ m.depth r.start = some (r.size, r.depth)) ∧ reply = .depths regions
  | .depthAt a, reply =>
    ∃ found : Option DepthRegion, (∀ r, found = some r ↔ m.CoversDepth a r) ∧
      reply = .depth (found.map (·.depth))
  | .depthRegionAt a, reply =>
    ∃ found : Option DepthRegion, (∀ r, found = some r ↔ m.CoversDepth a r) ∧
      reply = .depthRegion found
  | _, _ => True

/-! ## Updating -/

/-- What comes of an attempt to register something: what `added` says if there is room, and else
nothing at all. -/
def Registers (m : Registry) (room : Prop) (added : Registry) (reply : Reply) (m' : Registry) :
    Prop :=
  (room ∧ reply = .accepted ∧ m' = added) ∨ (¬ room ∧ reply = .failed .allocation ∧ m' = m)

theorem Registers.eq_of_accepted {m m' added : Registry} {room : Prop}
    (h : m.Registers room added .accepted m') : m' = added := by
  rcases h with ⟨-, -, heq⟩ | ⟨-, hfailed, -⟩
  · exact heq
  · cases hfailed

theorem Registers.eq_of_not_accepted {m m' added : Registry} {room : Prop} {reply : Reply}
    (h : m.Registers room added reply m') (hnot : reply ≠ .accepted) : m' = m := by
  rcases h with ⟨-, haccepted, -⟩ | ⟨-, -, heq⟩
  · exact absurd haccepted hnot
  · exact heq

/-- What a command of the writer does. A row of regions is registered up to the first one for which
there is no room. -/
def Writes (m : Registry) (s : Session) : WriterCommand → Reply → Registry → Prop
  | .addCode region, reply, m' =>
    m.Registers ((Registration.code region).HasRoom s.index.collect) (m.addCode region) reply m'
  | .buildCode span steps, reply, m' =>
    match s.recorded span steps with
    | .error f => reply = .failed f ∧ m' = m
    | .ok table =>
      m.Registers ((Registration.code ⟨span, table⟩).HasRoom s.index.collect)
        (m.addCode ⟨span, table⟩) reply m'
  | .fillCode first stride count, reply, m' =>
    ∃ n ≤ count, reply = .number n ∧
      s.index.Accepts ((row stride count 0 first).map fun place =>
        .code (filledCode place.1 place.2)) n ∧
      m' = ((row stride count 0 first).take n).foldl (fun m place =>
        m.addCode (filledCode place.1 place.2)) m
  | .fillDepth first stride count, reply, m' =>
    ∃ n ≤ count, reply = .number n ∧
      s.index.Accepts ((row stride count 0 first).map fun place =>
        .depth (filledDepth place.1 place.2)) n ∧
      m' = ((row stride count 0 first).take n).foldl (fun m place =>
        m.addDepth (filledDepth place.1 place.2)) m
  | .removeCode start releaseAfter, reply, m' =>
    match m.code start with
    | none => reply = .notRegistered ∧ m' = m
    | some (_, table) =>
      if s.anyPin = true ∧ releaseAfter = none then reply = .wouldBlock ∧ m' = m
      else ∃ hints, reply = .removed table hints ∧ m' = m.removeCode start
  | .addDepth region, reply, m' =>
    m.Registers ((Registration.depth region).HasRoom s.index.collect) (m.addDepth region) reply m'
  | .clearDepths span, reply, m' =>
    reply = .number (m.depthsIn span.start.toNat span.size.toNat).ncard ∧
      m' = m.clearDepths span.start.toNat span.size.toNat
  | .addDepthMap start stop changes, reply, m' =>
    ∃ n, s.index.Accepts ((depthRuns start stop changes.reverse).map .depth) n ∧
      m' = ((depthRuns start stop changes.reverse).take n).foldl addDepth m ∧
      (reply = .accepted ∧ n = (depthRuns start stop changes.reverse).length ∨
        reply = .failed .allocation ∧ n < (depthRuns start stop changes.reverse).length)
  | .freeBlock start stop, reply, m' =>
    reply = .done ∧ m' = (m.removeCode start).clearDepths start.toNat (stop.toNat - start.toNat)
  | .clear, reply, m' => reply = .done ∧ m' = empty
  | .drop, reply, m' => reply = .done ∧ m' = empty
  | .settings, _, m' => m' = m
  | .text, _, m' => m' = m
  | .newReader, _, m' => m' = m

/-- What a command may do in a session that shows a registry. -/
def Step (m : Registry) (s : Session) : Command → Reply → Registry → Prop
  | .reader n command, reply, m' =>
    m' = m ∧ if s.hasReader n then m.AnswersReader s command reply else reply = .noSuchHandle
  | .pin n command, reply, m' =>
    m' = m ∧ if (s.pin? n).isSome then m.AnswersPin command reply else reply = .noSuchHandle
  | .unpinAll, reply, m' => reply = .done ∧ m' = m
  | .writer command, reply, m' =>
    if s.writer then m.Writes s command reply m' else reply = .noWriter ∧ m' = m

theorem step_writer {m m' : Registry} {s : Session} (hwriter : s.writer = true)
    {command : WriterCommand} {reply : Reply} :
    m.Step s (.writer command) reply m' ↔ m.Writes s command reply m' :=
  Iff.of_eq (if_pos hwriter)

theorem step_no_writer {m m' : Registry} {s : Session} (hwriter : ¬ s.writer = true)
    {command : WriterCommand} {reply : Reply} :
    m.Step s (.writer command) reply m' ↔ reply = .noWriter ∧ m' = m :=
  Iff.of_eq (if_neg hwriter)

/-- The commands that no reader notices, given what they answer. -/
def Quiet (m : Registry) : Command → Reply → Prop
  | .reader _ _, _ | .pin _ _, _ | .unpinAll, _ => True
  | .writer (.addCode _), reply | .writer (.buildCode _ _), reply
  | .writer (.addDepth _), reply => reply ≠ .accepted
  | .writer (.fillCode _ _ _), reply | .writer (.fillDepth _ _ _), reply => reply = .number 0
  | .writer (.removeCode _ _), reply => reply = .notRegistered ∨ reply = .wouldBlock
  | .writer (.clearDepths span), _ => span.size = 0
  | .writer (.addDepthMap start stop changes), _ => depthRuns start stop changes.reverse = []
  | .writer (.freeBlock _ _), _ => False
  | .writer .clear, _ | .writer .drop, _ => m = empty
  | .writer .settings, _ | .writer .text, _ | .writer .newReader, _ => True

end Registry

end JitIndex
