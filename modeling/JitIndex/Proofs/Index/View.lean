import JitIndex.Index.Collect
import JitIndex.Proofs.Books
import JitIndex.Proofs.Gate
import JitIndex.Proofs.SkipList.Parking

/-!
# An index seen from outside its memory

A `View` is what there is to know about an index once the memory is abstracted
away: the layouts of its two lists, the fields of its gate, and what the
writer remembers. `Index.Sound` ties an index to its view.

All that a writer ever does to an index is made up of four moves
(`View.Move`):

- `release`: what is sealed becomes free, once its readers have left;
- `turn`: what is retired is sealed, and a new epoch begins;
- `refuse`: a frame table comes and goes, because there is no slot for it;
- `mutate`: some linked entries are retired, and at most one is linked.

A move is labelled with the events that it leaves in the books. What holds of
an index throughout a run is proved for the four moves and follows for every
operation, because every operation is a path of them (`Index.Leads`).
-/

namespace JitIndex

open SkipList (Layout Entry Laid ids)

structure View where
  code : Layout CodeRecord
  depth : Layout Payload
  gate : Gate.Fields
  sealedEpoch : Option Epoch
  taken : Nat

namespace SkipList

namespace Layout

universe u

variable {α : Type u}

def sealRetired (y : Layout α) : Layout α := { y with retired := [], sealed := y.retired }

def reclaim (y : Layout α) : Layout α :=
  { y with sealed := [], free := (ids y.sealed).reverse ++ y.free }

/-- Entries were retired, and one was linked if `added` is one. -/
structure Mutated (y : Layout α) (added : Option (Entry α)) (y' : Layout α) : Prop where
  perm : (y'.linked ++ y'.retired).Perm (added.toList ++ (y.linked ++ y.retired))
  retired : y.retired <:+ y'.retired
  sealed : y'.sealed = y.sealed
  orphans : y'.orphans = y.orphans
  gone : y'.gone = y.gone
  free : y'.free <:+ y.free
  fresh : ∀ e, added = some e → e.id ∉ ids y.entries

theorem Mutated.refl (y : Layout α) : Mutated y none y :=
  ⟨List.Perm.refl _, List.suffix_refl _, rfl, rfl, rfl, List.suffix_refl _, by rintro _ ⟨⟩⟩

end Layout

end SkipList

namespace Index

/-- What the books say about frame tables that are released. -/
def disposal (keep : Option SlotId) (released : List (Entry CodeRecord)) : List Event :=
  (released.filter fun e => !(some e.id == keep)).map
      (fun e => .tableDropped (some e.id) e.payload.owned) ++
    (released.filter fun e => some e.id == keep).map fun e => .tableReturned e.id e.payload.owned

def arrival (code : Option (Entry CodeRecord)) (depth : Option (Entry Payload)) : List Event :=
  (code.toList.flatMap fun e => [.tableTaken e.payload.owned, .slotFilled .code e.id]) ++
    depth.toList.map fun e => .slotFilled .depth e.id

end Index

namespace View

open Index (disposal arrival)

/-- The view after a mutation that left the lists in new layouts, with so many tables more. -/
def mutated (v : View) (arrived : Nat) (code : Layout CodeRecord) (depth : Layout Payload) : View :=
  { v with
    code
    depth
    gate := v.gate.mutated
    taken := v.taken + arrived }

/-- One move of a writer, and its events. -/
inductive Move : View → List Event → View → Prop
  | release {v : View} {e : Epoch} (keep : Option SlotId) (hsealed : v.sealedEpoch = some e)
      (hdrained : v.gate.readers e = 0) :
      Move v (disposal keep v.code.sealed)
        { v with code := v.code.reclaim, depth := v.depth.reclaim, sealedEpoch := none }
  | turn {v : View} (hsealed : v.sealedEpoch = none) :
      Move v []
        { v with
          code := v.code.sealRetired
          depth := v.depth.sealRetired
          gate := { v.gate with epoch := v.gate.epoch.other }
          sealedEpoch := some v.gate.epoch }
  | refuse {v : View} (table : FrameTable) :
      Move v [.tableTaken ⟨v.taken, table⟩, .tableDropped none ⟨v.taken, table⟩]
        { v with taken := v.taken + 1 }
  | mutate {v : View} {newCode : Option (Entry CodeRecord)} {newDepth : Option (Entry Payload)}
      {code : Layout CodeRecord} {depth : Layout Payload} (hcode : v.code.Mutated newCode code)
      (hdepth : v.depth.Mutated newDepth depth)
      (hserial : ∀ e, newCode = some e → e.payload.owned.serial = v.taken) :
      Move v (arrival newCode newDepth ++ [.mutationBegun])
        (v.mutated newCode.toList.length code depth)

inductive Moves : View → List Event → View → Prop
  | refl (v : View) : Moves v [] v
  | tail {v w x : View} {es fs : List Event} : Moves v es w → Move w fs x → Moves v (es ++ fs) x

theorem Moves.single {v w : View} {es : List Event} (h : Move v es w) : Moves v es w :=
  .tail (.refl v) h

theorem Moves.trans {v w x : View} {es fs : List Event} (h : Moves v es w) (h' : Moves w fs x) :
    Moves v (es ++ fs) x := by
  induction h' with
  | refl => rwa [List.append_nil]
  | tail _ hmove ih =>
      rw [← List.append_assoc]
      exact .tail ih hmove

/-! ## The order of epochs -/

/-- While nothing is sealed the other epoch has no readers; what is sealed is sealed under it. -/
structure Orderly (v : View) : Prop where
  idle : v.sealedEpoch = none →
    v.code.sealed = [] ∧ v.depth.sealed = [] ∧ v.gate.readers v.gate.epoch.other = 0
  busy : ∀ e, v.sealedEpoch = some e → e = v.gate.epoch.other

theorem Move.orderly {v w : View} {es : List Event} (h : Move v es w) (ho : v.Orderly) :
    w.Orderly := by
  cases h with
  | release keep hsealed hdrained =>
      refine ⟨fun _ => ⟨rfl, rfl, ?_⟩, by rintro _ ⟨⟩⟩
      rw [← ho.busy _ hsealed]
      exact hdrained
  | turn hsealed =>
      refine ⟨by rintro ⟨⟩, fun e he => ?_⟩
      rw [← Option.some.inj he]
      exact (Epoch.other_other _).symm
  | refuse => exact ⟨ho.idle, ho.busy⟩
  | mutate hcode hdepth =>
      refine ⟨fun hnone => ?_, ho.busy⟩
      obtain ⟨h₁, h₂, h₃⟩ := ho.idle hnone
      exact ⟨hcode.sealed.trans h₁, hdepth.sealed.trans h₂, h₃⟩

theorem Moves.orderly {v w : View} {es : List Event} (h : Moves v es w) (ho : v.Orderly) :
    w.Orderly := by
  induction h with
  | refl => exact ho
  | tail _ hmove ih => exact hmove.orderly ih

/-- A writer leaves the readers where they are. -/
theorem Moves.readers_eq {v w : View} {es : List Event} (h : Moves v es w) :
    w.gate.readers = v.gate.readers := by
  induction h with
  | refl => rfl
  | tail _ hmove ih =>
      rw [← ih]
      cases hmove <;> rfl

end View

namespace Index

/-- The index is as the view says, with no mutation open and no node waiting to be linked. -/
structure Sound (ix : Index) (v : View) : Prop where
  code : Laid ix.code v.code
  depth : Laid ix.depth v.depth
  codeReady : v.code.pending = []
  depthReady : v.depth.pending = []
  gate : Gate.Packs ix.gate v.gate
  closed : v.gate.isOpen = false
  sealedEpoch : ix.sealedEpoch = v.sealedEpoch
  taken : ix.taken = v.taken

/-- The slots handed out in a list hold what they held, but for those that were filled in. -/
def Keeps {α : Type} (half : Half) (es : List Event) (l l' : SkipList α) : Prop :=
  l.used ≤ l'.used ∧
    ∀ id : SlotId, id.val ≤ l.used → .slotFilled half id ∉ es → l'.core? id = l.core? id

theorem Keeps.of_core {α : Type} {half : Half} {es : List Event} {l l' : SkipList α}
    (hused : l'.used = l.used) (hcore : ∀ id, l'.core? id = l.core? id) : Keeps half es l l' :=
  ⟨Nat.le_of_eq hused.symm, fun id _ _ => hcore id⟩

theorem Keeps.trans {α : Type} {half : Half} {es fs : List Event} {l l' l'' : SkipList α}
    (h : Keeps half es l l') (h' : Keeps half fs l' l'') : Keeps half (es ++ fs) l l'' := by
  refine ⟨Nat.le_trans h.1 h'.1, fun id hid hnot => ?_⟩
  obtain ⟨hes, hfs⟩ := not_or.mp (fun hmem => hnot (List.mem_append.mpr hmem))
  rw [h'.2 id (Nat.le_trans hid h.1) hfs, h.2 id hid hes]

/-- An index was led to another one by moves of its writer. -/
structure Leads (ix : Index) (v : View) (es : List Event) (ix' : Index) (v' : View) : Prop where
  moves : View.Moves v es v'
  sound : Sound ix' v'
  books : ix'.host.books = ix.host.books ++ es
  code : Keeps .code es ix.code ix'.code
  depth : Keeps .depth es ix.depth ix'.depth

theorem Leads.refl {ix : Index} {v : View} (h : Sound ix v) : Leads ix v [] ix v :=
  ⟨.refl v, h, (List.append_nil _).symm, .of_core rfl fun _ => rfl, .of_core rfl fun _ => rfl⟩

theorem Leads.trans {ix ix' ix'' : Index} {v v' v'' : View} {es fs : List Event}
    (h : Leads ix v es ix' v') (h' : Leads ix' v' fs ix'' v'') :
    Leads ix v (es ++ fs) ix'' v'' where
  moves := h.moves.trans h'.moves
  sound := h'.sound
  books := by rw [h'.books, h.books, List.append_assoc]
  code := h.code.trans h'.code
  depth := h.depth.trans h'.depth

/-- What is not in the books makes no difference. -/
theorem Leads.note {ix ix' : Index} {v v' : View} {es : List Event} (h : Leads ix v es ix' v')
    {e : Event} (he : e.channel ≠ .books) : Leads ix v es (ix'.note e) v' where
  moves := h.moves
  sound := ⟨h.sound.code, h.sound.depth, h.sound.codeReady, h.sound.depthReady, h.sound.gate,
    h.sound.closed, h.sound.sealedEpoch, h.sound.taken⟩
  books := (Host.books_note_of_not_books _ he).trans h.books
  code := h.code
  depth := h.depth

end Index

end JitIndex
