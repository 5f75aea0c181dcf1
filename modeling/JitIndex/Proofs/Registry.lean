import JitIndex.Index.Read
import JitIndex.Proofs.Index.View
import Mathlib.Logic.Function.Basic
import Mathlib.Order.Bounds.Defs

/-!
# What an index is to its users

To its users an index is a `Registry`: one finite map from start addresses to
code regions, and one to depth regions. The writer's operations are updates of
the two maps, and `Index.registry` reads the maps off an index.

`Index.Shows` says what a look-up owes to a registry: the region with the
greatest start that is not above an address answers for the address, if it
covers it; and a listing gives every region once, in the order of the starts.
-/

namespace JitIndex

open SkipList (Entry Laid)

/-- The regions of an index, by their start addresses. -/
structure Registry where
  /-- The size and the frame table of the code region at an address. -/
  code : Addr → Option (Addr × FrameTable)
  /-- The size and the depth of the depth region at an address. -/
  depth : Addr → Option (Addr × UInt32)

namespace Registry

def empty : Registry := ⟨fun _ => none, fun _ => none⟩

/-- A code region is registered, in the place of the one that starts with it. -/
def addCode (m : Registry) (r : CodeRegion) : Registry :=
  { m with code := Function.update m.code r.start (some (r.size, r.table)) }

def removeCode (m : Registry) (start : Addr) : Registry :=
  { m with code := Function.update m.code start none }

/-- A depth region is registered, in the place of the one that starts with it. -/
def addDepth (m : Registry) (r : DepthRegion) : Registry :=
  { m with depth := Function.update m.depth r.start (some (r.size, r.depth)) }

/-- The depth regions that start at one of `size` addresses from `start` on, whether all of those
addresses exist or not. -/
def depthsIn (m : Registry) (start size : Nat) : Set Addr :=
  {k | (m.depth k).isSome ∧ start ≤ k.toNat ∧ k.toNat < start + size}

/-- Those depth regions are removed. -/
def clearDepths (m : Registry) (start size : Nat) : Registry :=
  { m with depth := fun k => if start ≤ k.toNat ∧ k.toNat < start + size then none else m.depth k }

/-- The regions that the stack depths of a block come to, the last one first. A change that covers
nothing comes to none. -/
def depthRuns (start : Addr) : Addr → List (Addr × UInt32) → List DepthRegion
  | _, [] => []
  | stop, (offset, depth) :: earlier =>
    let pos := start.addSat offset
    if pos < stop then ⟨⟨pos, stop - pos⟩, depth⟩ :: depthRuns start pos earlier
    else depthRuns start pos earlier

/-- The code region that answers for an address: the one with the greatest start up to there, if
it reaches that far. -/
def CoversCode (m : Registry) (a : Addr) (r : CodeRegion) : Prop :=
  m.code r.start = some (r.size, r.table) ∧ IsGreatest {k | (m.code k).isSome ∧ k ≤ a} r.start ∧
    r.contains a = true

def CoversDepth (m : Registry) (a : Addr) (r : DepthRegion) : Prop :=
  m.depth r.start = some (r.size, r.depth) ∧ IsGreatest {k | (m.depth k).isSome ∧ k ≤ a} r.start ∧
    r.contains a = true

/-- Spans of one size at a stride, each with its place in the row. -/
def row (stride : Addr) : Nat → Nat → Span → List (Span × Nat)
  | 0, _, _ => []
  | count + 1, n, span =>
    (span, n) :: row stride count (n + 1) { span with start := span.start + stride }

end Registry

/-! ## Reading a registry off sorted entries -/

def View.registry (v : View) : Registry where
  code a := (v.code.linked.find? fun e => e.key == a).map fun e =>
    (e.payload.size, e.payload.owned.table)
  depth a := (v.depth.linked.find? fun e => e.key == a).map fun e =>
    ((DepthRegion.ofEntry e).size, (DepthRegion.ofEntry e).depth)

namespace Index

def registry (ix : Index) : Registry where
  code a := (ix.code.get? a).map fun e => (e.payload.size, e.payload.owned.table)
  depth a := (ix.depth.get? a).map fun e =>
    ((DepthRegion.ofEntry e).size, (DepthRegion.ofEntry e).depth)

theorem Sound.registry_eq {ix : Index} {v : View} (h : Sound ix v) : ix.registry = v.registry := by
  unfold registry View.registry
  simp only [h.code.get?_eq, h.depth.get?_eq]

/-- The look-ups in an index answer what is in the registry. -/
structure Shows (ix : Index) (m : Registry) : Prop where
  codeRegions : ix.codeRegions.Pairwise (fun r s => r.start < s.start) ∧
    ∀ r, r ∈ ix.codeRegions ↔ m.code r.start = some (r.size, r.table)
  depthRegions : ix.depthRegions.Pairwise (fun r s => r.start < s.start) ∧
    ∀ r, r ∈ ix.depthRegions ↔ m.depth r.start = some (r.size, r.depth)
  codeAt : ∀ a r, ix.codeAt? a = some r ↔ m.CoversCode a r
  depthRegionAt : ∀ a r, ix.depthRegionAt? a = some r ↔ m.CoversDepth a r
  firstCode : ∀ k, ix.firstCode? = some k ↔ IsLeast {k | (m.code k).isSome} k

/-! ## Look-ups in sorted entries -/

section

variable {α β R : Type} {es : List (Entry α)} (hs : es.Pairwise fun a b => a.key < b.key)
  {region : Entry α → R} {start : R → Addr} {value : Entry α → β} {valueOf : R → β}
  (hregion : ∀ e r, region e = r ↔ e.key = start r ∧ value e = valueOf r)
include hs

/-- A map that is read off sorted entries has a binding for every entry. -/
theorem isSome_map_find?_iff (g : Entry α → β) (a : Addr) :
    ((es.find? fun e => e.key == a).map g).isSome = true ↔ ∃ e ∈ es, e.key = a := by
  rw [Option.isSome_map, Option.isSome_iff_exists]
  simp only [SkipList.find?_eq_some_iff_mem hs]

include hregion

theorem mem_regions_iff (r : R) :
    r ∈ es.map region ↔ (es.find? fun e => e.key == start r).map value = some (valueOf r) := by
  simp only [List.mem_map, Option.map_eq_some_iff, SkipList.find?_eq_some_iff_mem hs, hregion]
  constructor
  · rintro ⟨e, he, hkey, hvalue⟩
    exact ⟨e, ⟨he, hkey⟩, hvalue⟩
  · rintro ⟨e, ⟨he, hkey⟩, hvalue⟩
    exact ⟨e, he, hkey, hvalue⟩

theorem floor_region_iff (covers : R → Bool) (a : Addr) (r : R) :
    ((es.filter fun e => e.key ≤ a).getLast?.map region).filter covers = some r ↔
      (es.find? fun e => e.key == start r).map value = some (valueOf r) ∧
        IsGreatest {k | ((es.find? fun e => e.key == k).map value).isSome ∧ k ≤ a} (start r) ∧
        covers r = true := by
  rw [Option.filter_eq_some_iff, Option.map_eq_some_iff, ← mem_regions_iff hs hregion]
  simp only [SkipList.getLast?_eq_some_iff hs, List.mem_map]
  constructor
  · rintro ⟨⟨e, ⟨he, hle, hgreatest⟩, hr⟩, hcovers⟩
    obtain ⟨hkey, hvalue⟩ := (hregion e r).mp hr
    refine ⟨⟨e, he, hr⟩, ⟨⟨?_, hkey ▸ hle⟩, fun k hk => ?_⟩, hcovers⟩
    · rw [isSome_map_find?_iff hs]
      exact ⟨e, he, hkey⟩
    · obtain ⟨hsome, hka⟩ := hk
      obtain ⟨f, hf, rfl⟩ := (isSome_map_find?_iff hs value k).mp hsome
      exact hkey ▸ hgreatest f hf hka
  · rintro ⟨⟨e, he, hr⟩, ⟨⟨-, hle⟩, hgreatest⟩, hcovers⟩
    obtain ⟨hkey, hvalue⟩ := (hregion e r).mp hr
    refine ⟨⟨e, ⟨he, hkey ▸ hle, fun f hf hfa => ?_⟩, hr⟩, hcovers⟩
    rw [hkey]
    exact hgreatest ⟨(isSome_map_find?_iff hs value f.key).mpr ⟨f, hf, rfl⟩, hfa⟩

end

theorem Sound.shows {ix : Index} {v : View} (h : Sound ix v) : ix.Shows ix.registry := by
  have hcode : ∀ (e : Entry CodeRecord) r, CodeRegion.ofEntry e = r ↔
      e.key = r.start ∧ (e.payload.size, e.payload.owned.table) = (r.size, r.table) := by
    rintro e ⟨⟨start, size⟩, table⟩
    simp [CodeRegion.ofEntry, and_assoc]
  have hdepth : ∀ (e : Entry Payload) r, DepthRegion.ofEntry e = r ↔
      e.key = r.start ∧
        ((DepthRegion.ofEntry e).size, (DepthRegion.ofEntry e).depth) = (r.size, r.depth) := by
    rintro e ⟨⟨start, size⟩, depth⟩
    simp [DepthRegion.ofEntry, DepthRegion.decode, and_assoc]
  rw [h.registry_eq]
  refine ⟨⟨?_, fun r => ?_⟩, ⟨?_, fun r => ?_⟩, fun a r => ?_, fun a r => ?_, fun k => ?_⟩
  · rw [codeRegions, h.code.entries_eq, List.pairwise_map]
    exact h.code.sorted
  · rw [codeRegions, h.code.entries_eq]
    exact mem_regions_iff h.code.sorted hcode r
  · rw [depthRegions, h.depth.entries_eq, List.pairwise_map]
    exact h.depth.sorted
  · rw [depthRegions, h.depth.entries_eq]
    exact mem_regions_iff h.depth.sorted hdepth r
  · rw [codeAt?, h.code.floor?_eq]
    exact floor_region_iff h.code.sorted hcode (fun r => r.contains a) a r
  · rw [depthRegionAt?, h.depth.floor?_eq]
    exact floor_region_iff h.depth.sorted hdepth (fun r => r.contains a) a r
  · rw [firstCode?, h.code.first?_eq, Option.map_eq_some_iff]
    simp only [SkipList.head?_eq_some_iff h.code.sorted, View.registry,
      isSome_map_find?_iff h.code.sorted]
    constructor
    · rintro ⟨e, ⟨he, hleast⟩, rfl⟩
      refine ⟨⟨e, he, rfl⟩, ?_⟩
      rintro _ ⟨f, hf, rfl⟩
      exact hleast f hf
    · rintro ⟨⟨e, he, rfl⟩, hleast⟩
      exact ⟨e, ⟨he, fun f hf => hleast ⟨f, hf, rfl⟩⟩, rfl⟩

end Index

end JitIndex
