import JitIndex.Index.Write
import JitIndex.Proofs.Index.Collecting
import JitIndex.Proofs.SkipList.Room

/-!
# When a region is accepted

A region is registered exactly if there is room for it once the index has been
collected (`Index.add_ok_iff`), and a refusal changes nothing but the books. So
of regions that are offered one after another those are registered that come
before the first for which there is no room (`Index.Accepts`).
-/

namespace JitIndex

open SkipList (Layout Entry Laid)

/-- A region that is offered to an index. -/
inductive Registration where
  | code (region : CodeRegion)
  | depth (region : DepthRegion)

namespace Registration

/-- The frame tables that come with it, as an index numbers them that took over so many before. -/
def tables (taken : Nat) : Registration → List OwnedTable
  | code region => [⟨taken, region.table⟩]
  | depth _ => []

/-- There is room for the region in an index as it is. -/
def HasRoom (ix : Index) : Registration → Prop
  | code _ => ix.code.HasRoom ix.host
  | depth _ => ix.depth.HasRoom ix.host

end Registration

namespace Index

/-- What a refused registration has in its books. -/
def passage (tables : List OwnedTable) : List Event :=
  tables.flatMap fun t => [.tableTaken t, .tableDropped none t]

def add (ix : Index) : Registration → Except Failure Unit × Index
  | .code region => ix.addCode region
  | .depth region => ix.addDepth region

variable {ix : Index} {v : View}

/-! ## When a region is refused -/

/-- A code region is refused exactly if there is no room for it, and then only its frame table went
through the index. -/
theorem registerCode_cases (h : Sound ix v) (region : CodeRegion) :
    (ix.code.HasRoom ix.host ∧ ∃ replaced, (ix.registerCode region).1 = .ok replaced) ∨
    (¬ ix.code.HasRoom ix.host ∧ ∃ host,
      ix.registerCode region = (.error .allocation, { ix with taken := ix.taken + 1, host }) ∧
      host.books = ix.host.books ++ passage [⟨ix.taken, region.table⟩]) := by
  obtain ⟨host₀, hhost₀⟩ : ∃ host₀, ix.host.note (.tableTaken ⟨ix.taken, region.table⟩) = host₀ :=
    ⟨_, rfl⟩
  have hroom : (∃ id, (ix.code.alloc host₀ region.start ⟨region.size, ix.taken, region.table⟩).1 =
      .ok id) ↔ ix.code.HasRoom ix.host := hhost₀ ▸ h.code.alloc_ok_iff
  unfold registerCode
  dsimp only
  rw [hhost₀]
  rcases h.code.alloc_cases host₀ region.start ⟨region.size, ix.taken, region.table⟩ with
    ⟨host, halloc, hbooks⟩ | ⟨id, code, host, halloc, -⟩ <;> rw [halloc] at hroom ⊢
  · refine Or.inr ⟨fun hthere => ?_, _, rfl, ?_⟩
    · obtain ⟨id, hid⟩ := hroom.mpr hthere
      cases hid
    · rw [Host.books_notes, hbooks, ← hhost₀, Host.books_note_of_books _ rfl, List.append_assoc]
      rfl
  · exact Or.inl ⟨hroom.mp ⟨id, rfl⟩, _, rfl⟩

theorem registerDepth_cases (h : Sound ix v) (region : DepthRegion) :
    (ix.depth.HasRoom ix.host ∧ ∃ replaced, (ix.registerDepth region).1 = .ok replaced) ∨
    (¬ ix.depth.HasRoom ix.host ∧ ∃ host,
      ix.registerDepth region = (.error .allocation, { ix with host }) ∧
      host.books = ix.host.books ++ passage []) := by
  have hroom : (∃ id, (ix.depth.alloc ix.host region.start region.encode).1 = .ok id) ↔
      ix.depth.HasRoom ix.host := h.depth.alloc_ok_iff
  unfold registerDepth
  rcases h.depth.alloc_cases ix.host region.start region.encode with
    ⟨host, halloc, hbooks⟩ | ⟨id, depth, host, halloc, -⟩ <;> rw [halloc] at hroom ⊢
  · refine Or.inr ⟨fun hthere => ?_, _, rfl, ?_⟩
    · obtain ⟨id, hid⟩ := hroom.mpr hthere
      cases hid
    · rw [Host.books_note_of_not_books _ (by rintro ⟨⟩), hbooks]
      exact (List.append_nil _).symm
  · exact Or.inl ⟨hroom.mp ⟨id, rfl⟩, _, rfl⟩

/-- A region is refused exactly if there is no room for it after the collection, and that is all
that is left of the attempt. -/
theorem add_cases (h : Sound ix.collect v) (r : Registration) :
    (r.HasRoom ix.collect ∧ (ix.add r).1 = .ok ()) ∨
    (¬ r.HasRoom ix.collect ∧ ∃ host,
      ix.add r = (.error .allocation,
        { ix.collect with taken := ix.collect.taken + (r.tables ix.collect.taken).length, host }) ∧
      host.books = ix.collect.host.books ++ passage (r.tables ix.collect.taken)) := by
  cases r with
  | code region =>
      rcases registerCode_cases h region with
        ⟨hroom, replaced, hok⟩ | ⟨hnone, host, herror, hbooks⟩
      · refine Or.inl ⟨hroom, ?_⟩
        show (ix.addCode region).1 = _
        unfold addCode
        rw [← Prod.eta (ix.collect.registerCode region), hok]
      · refine Or.inr ⟨hnone, host, ?_, hbooks⟩
        show ix.addCode region = _
        unfold addCode
        rw [herror]
        rfl
  | depth region =>
      rcases registerDepth_cases h region with
        ⟨hroom, replaced, hok⟩ | ⟨hnone, host, herror, hbooks⟩
      · refine Or.inl ⟨hroom, ?_⟩
        show (ix.addDepth region).1 = _
        unfold addDepth
        rw [← Prod.eta (ix.collect.registerDepth region), hok]
      · refine Or.inr ⟨hnone, host, ?_, hbooks⟩
        show ix.addDepth region = _
        unfold addDepth
        rw [herror]
        rfl

theorem add_ok_iff (h : Sound ix v) (ho : v.Orderly) (r : Registration) :
    (ix.add r).1 = .ok () ↔ r.HasRoom ix.collect := by
  obtain ⟨es, released, w, hlead, -⟩ := collectKeeping_spec ix none h ho
  rcases add_cases (show Sound ix.collect w from hlead.sound) r with
    ⟨hroom, hok⟩ | ⟨hnone, host, herror, -⟩
  · exact iff_of_true hok hroom
  · rw [herror]
    exact iff_of_false (by rintro ⟨⟩) hnone

/-! ## One region after another -/

/-- How many regions are registered, of these, before there is no room for one. -/
def Accepts : Index → List Registration → Nat → Prop
  | _, [], n => n = 0
  | ix, r :: _, 0 => ¬ r.HasRoom ix.collect
  | ix, r :: rs, n + 1 => r.HasRoom ix.collect ∧ Accepts (ix.add r).2 rs n

end Index

end JitIndex
