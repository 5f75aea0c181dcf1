import JitIndex.Proofs.Index.Collecting
import JitIndex.Proofs.SkipList.Room

/-!
# What a collection spares

A collection moves parked slots along and drops frame tables. It asks for no
memory and draws no height; every slot keeps what it holds, and slots only
become free (`Index.Kept`). So there is at least as much room after it as
before (`Index.Kept.hasRoom_code`, `Index.Kept.hasRoom_depth`).

It may begin a new epoch, but only one without readers. So a reader that could
pin himself before a writer's moves can do so after them (`View.Moves.admits`).
-/

namespace JitIndex

open SkipList (Layout Entry Laid)

namespace Host

/-- All that decides whether memory is granted. -/
def memory (h : Host) : Allocator × Nat := (h.allocator, h.requests)

theorem memory_notes (h : Host) (es : List Event) : (h.notes es).memory = h.memory := by
  induction es generalizing h with
  | nil => rfl
  | cons e es ih => exact ih (h.note e)

theorem memory_check (h : Host) (holds : Bool) (f : Fault) :
    (h.check holds f).memory = h.memory := by
  unfold check
  split <;> rfl

end Host

namespace SkipList

universe u

variable {α : Type u} {l l' : SkipList α}

/-- Where all is kept there is as much room as there was. -/
theorem Kept.hasRoom (h : Kept l l') {host host' : Host} (hmemory : host'.memory = host.memory)
    (hroom : l.HasRoom host) : l'.HasRoom host' := by
  obtain ⟨hallocator, hrequests⟩ := Prod.mk.inj hmemory
  unfold HasRoom
  rw [h.used, hallocator, hrequests]
  refine hroom.imp h.free fun ⟨id, hid, hthere⟩ => ⟨id, hid, hthere.imp_left fun hnode => ?_⟩
  rwa [← core?_isSome, h.core, core?_isSome]

end SkipList

namespace Index

variable {ix ix' ix'' : Index}

/-- Both lists are kept, and memory was neither asked for nor given back. -/
structure Kept (ix ix' : Index) : Prop where
  code : SkipList.Kept ix.code ix'.code
  depth : SkipList.Kept ix.depth ix'.depth
  taken : ix'.taken = ix.taken
  memory : ix'.host.memory = ix.host.memory

theorem Kept.refl (ix : Index) : Kept ix ix := ⟨.refl _, .refl _, rfl, rfl⟩

theorem Kept.trans (h : Kept ix ix') (h' : Kept ix' ix'') : Kept ix ix'' where
  code := h.code.trans h'.code
  depth := h.depth.trans h'.depth
  taken := h'.taken.trans h.taken
  memory := h'.memory.trans h.memory

theorem release_kept (ix : Index) (e : Epoch) (keep : Option SlotId) :
    Kept ix (ix.release e keep).2 :=
  ⟨ix.code.reclaimSome_kept _, ix.depth.reclaimSome_kept _, rfl,
    (Host.memory_notes _ _).trans (Host.memory_notes _ _)⟩

theorem sealRetired_kept (ix : Index) : Kept ix ix.sealRetired :=
  ⟨ix.code.sealRetired_kept, ix.depth.sealRetired_kept, rfl,
    (Host.memory_check _ _ _).trans (Host.memory_check _ _ _)⟩

theorem collectKeeping_kept (ix : Index) (keep : Option SlotId) :
    Kept ix (ix.collectKeeping keep).2 := by
  induction ix using collectKeeping.induct keep with
  | case1 ix epoch hsealed hdrained released ih =>
      rw [collectKeeping_release keep hsealed hdrained]
      exact (ix.release_kept epoch keep).trans ih
  | case2 ix epoch hsealed hdrained =>
      rw [collectKeeping_blocked keep hsealed hdrained]
      exact .refl ix
  | case3 ix hnone hretired ih =>
      rw [collectKeeping_turn keep hnone hretired]
      exact ix.sealRetired_kept.trans ih
  | case4 ix hnone hretired =>
      rw [collectKeeping_idle keep hnone hretired]
      exact .refl ix

theorem collect_kept (ix : Index) : Kept ix ix.collect := ix.collectKeeping_kept none

theorem Kept.hasRoom_code (h : Kept ix ix') (hroom : ix.code.HasRoom ix.host) :
    ix'.code.HasRoom ix'.host := h.code.hasRoom h.memory hroom

theorem Kept.hasRoom_depth (h : Kept ix ix') (hroom : ix.depth.HasRoom ix.host) :
    ix'.depth.HasRoom ix'.host := h.depth.hasRoom h.memory hroom

end Index

/-! ## Epochs -/

namespace View

variable {v w : View} {es : List Event}

/-- The epoch stays, or the new one has no readers. -/
theorem Moves.admits (h : Moves v es w) (ho : v.Orderly) :
    w.gate.epoch = v.gate.epoch ∨ w.gate.readers w.gate.epoch = 0 := by
  induction h with
  | refl => exact Or.inl rfl
  | @tail v' w _ _ hmoves hmove ih =>
      have hreaders := (Moves.single hmove).readers_eq
      cases hmove with
      | turn hsealed => exact Or.inr ((hmoves.orderly ho).idle hsealed).2.2
      | release => exact ih
      | refuse => exact ih
      | mutate => exact ih

end View

end JitIndex
