import JitIndex.Proofs.Session.Running
import Mathlib.Data.List.Pairwise

/-!
# Blocks that come and go

The writer of an index works in blocks: it registers the code of a block and
then its stack depths, and forgets both together. As long as live blocks do
not overlap, they know nothing of each other (`Session.serves_shows`): an
address is answered for by the block that it lies in, whatever was registered
or forgotten before, next to it or in its place.

The depth regions that a block comes to (`Registry.depthRuns`) lie inside it
and apart from each other. So a registry `Lists` the live blocks if it has the
code region of each, the depth regions of each, and nothing else; registering
and forgetting a block keep it that way, and where regions lie apart, the one
with the greatest start up to an address is the only one that can cover it.
-/

namespace JitIndex

/-! ## Stack depths inside a block -/

namespace Registry

/-- Two regions have no address in common. -/
def Apart (r q : DepthRegion) : Prop :=
  r.start.toNat + r.size.toNat ≤ q.start.toNat ∨ q.start.toNat + q.size.toNat ≤ r.start.toNat

instance : Std.Symm Apart := ⟨fun _ _ h => h.symm⟩

variable {start stop : Addr} {changes : List (Addr × UInt32)}

theorem toNat_addSat_of_le {offset : Addr} (h : start.toNat + offset.toNat ≤ stop.toNat) :
    (start.addSat offset).toNat = start.toNat + offset.toNat := by
  have hlt : stop.toNat < UInt64.size := stop.toNat_lt_size
  rw [Addr.toNat_addSat]
  omega

theorem depthRuns_cons {offset : Addr} {depth : UInt32} {earlier : List (Addr × UInt32)} :
    depthRuns start stop ((offset, depth) :: earlier) =
      if start.addSat offset < stop then
        ⟨⟨start.addSat offset, stop - start.addSat offset⟩, depth⟩ ::
          depthRuns start (start.addSat offset) earlier
      else depthRuns start (start.addSat offset) earlier := rfl

/-- Changes inside a block, the last one first. -/
structure Descending (start stop : Addr) (changes : List (Addr × UInt32)) : Prop where
  offsets : changes.Pairwise fun c d => d.1 ≤ c.1
  inside : ∀ c ∈ changes, start.toNat + c.1.toNat ≤ stop.toNat

theorem Descending.tail {offset : Addr} {depth : UInt32}
    (h : Descending start stop ((offset, depth) :: changes)) :
    (start.addSat offset).toNat = start.toNat + offset.toNat ∧
      Descending start (start.addSat offset) changes := by
  obtain ⟨hle, hrest⟩ := List.pairwise_cons.mp h.offsets
  have hin : start.toNat + offset.toNat ≤ stop.toNat := h.inside _ (List.mem_cons_self ..)
  have hpos := toNat_addSat_of_le hin
  refine ⟨hpos, hrest, fun c hc => ?_⟩
  have hoffset : c.1.toNat ≤ offset.toNat := UInt64.le_iff_toNat_le.mp (hle c hc)
  omega

/-- The regions of a block are not empty, lie inside it, and apart from each other. -/
theorem Descending.runs (h : Descending start stop changes) :
    (∀ r ∈ depthRuns start stop changes, start.toNat ≤ r.start.toNat ∧ 0 < r.size.toNat ∧
      r.start.toNat + r.size.toNat ≤ stop.toNat) ∧
    (depthRuns start stop changes).Pairwise Apart := by
  induction changes generalizing stop with
  | nil => exact ⟨fun _ hr => absurd hr List.not_mem_nil, .nil⟩
  | cons change earlier ih =>
      obtain ⟨offset, depth⟩ := change
      have hin : start.toNat + offset.toNat ≤ stop.toNat := h.inside _ (List.mem_cons_self ..)
      obtain ⟨hpos, hrest⟩ := h.tail
      obtain ⟨hmem, hapart⟩ := ih hrest
      have hearlier : ∀ r ∈ depthRuns start (start.addSat offset) earlier,
          start.toNat ≤ r.start.toNat ∧ 0 < r.size.toNat ∧
            r.start.toNat + r.size.toNat ≤ (start.addSat offset).toNat := hmem
      rw [depthRuns_cons]
      split
      · rename_i hlt
        have hsize := UInt64.toNat_sub_of_le stop (start.addSat offset) (UInt64.le_of_lt hlt)
        rw [UInt64.lt_iff_toNat_lt] at hlt
        refine ⟨fun r hr => ?_, List.pairwise_cons.mpr ⟨fun r hr => Or.inr ?_, hapart⟩⟩
        · rcases List.mem_cons.mp hr with rfl | hr
          · dsimp only
            omega
          · have := hearlier r hr
            omega
        · exact (hearlier r hr).2.2
      · refine ⟨fun r hr => ?_, hapart⟩
        have := hearlier r hr
        omega

/-- The region that covers an address has the depth of the last change up to there. -/
theorem Descending.covering (h : Descending start stop changes) {a : Addr} (ha : a < stop)
    (d : UInt32) :
    (∃ r ∈ depthRuns start stop changes, r.contains a = true ∧ r.depth = d) ↔
      (changes.find? fun c => start.toNat + c.1.toNat ≤ a.toNat).map (·.2) = some d := by
  rw [UInt64.lt_iff_toNat_lt] at ha
  induction changes generalizing stop with
  | nil => simp [depthRuns]
  | cons change earlier ih =>
      obtain ⟨offset, depth⟩ := change
      have hin : start.toNat + offset.toNat ≤ stop.toNat := h.inside _ (List.mem_cons_self ..)
      obtain ⟨hpos, hrest⟩ := h.tail
      rw [depthRuns_cons]
      split
      · rename_i hlt
        have hsize := UInt64.toNat_sub_of_le stop (start.addSat offset) (UInt64.le_of_lt hlt)
        rw [List.exists_mem_cons_iff, Span.contains_iff]
        dsimp only
        by_cases hreach : start.toNat + offset.toNat ≤ a.toNat
        · -- the earlier regions end where this one starts
          have hnone : ¬ ∃ r ∈ depthRuns start (start.addSat offset) earlier,
              r.contains a = true ∧ r.depth = d := by
            rintro ⟨r, hr, hcontains, -⟩
            have := hrest.runs.1 r hr
            have := (Span.contains_iff _ a).mp hcontains
            omega
          rw [or_iff_left hnone, List.find?_cons_of_pos (by simpa using hreach), Option.map_some,
            Option.some.injEq, and_iff_right (by omega)]
        · rw [or_iff_right (by omega), List.find?_cons_of_neg (by simpa using hreach)]
          exact ih hrest (by omega)
      · rename_i hge
        rw [UInt64.lt_iff_toNat_lt] at hge
        rw [List.find?_cons_of_neg (by simp only [decide_eq_true_eq]; omega)]
        exact ih hrest (by omega)

/-! ## Many depth regions at once -/

theorem foldl_addDepth_code (rs : List DepthRegion) (m : Registry) :
    (rs.foldl addDepth m).code = m.code := by
  induction rs generalizing m with
  | nil => rfl
  | cons r rs ih => exact ih (m.addDepth r)

/-- Regions that start at different addresses are all there when they were registered one after
another. -/
theorem foldl_addDepth_depth {rs : List DepthRegion}
    (hne : rs.Pairwise fun r q => r.start ≠ q.start) (m : Registry) (k : Addr) (v : Addr × UInt32) :
    (rs.foldl addDepth m).depth k = some v ↔
      (∃ r ∈ rs, r.start = k ∧ (r.size, r.depth) = v) ∨
        (∀ r ∈ rs, r.start ≠ k) ∧ m.depth k = some v := by
  induction rs generalizing m with
  | nil => simp
  | cons r rs ih =>
      obtain ⟨hr, hrest⟩ := List.pairwise_cons.mp hne
      rw [List.foldl_cons, ih hrest, List.exists_mem_cons_iff, List.forall_mem_cons]
      show _ ∨ _ ∧ Function.update m.depth r.start (some (r.size, r.depth)) k = some v ↔ _
      by_cases hk : k = r.start
      · subst hk
        have hothers : ∀ q ∈ rs, q.start ≠ r.start := fun q hq => (hr q hq).symm
        rw [Function.update_self, and_iff_right hothers, Option.some.injEq]
        tauto
      · have hother : r.start ≠ k := Ne.symm hk
        have hself : ¬ (r.start = k ∧ (r.size, r.depth) = v) := fun h => hother h.1
        rw [Function.update_of_ne hk, or_iff_right hself, and_iff_right hother]

end Registry

/-! ## Blocks -/

/-- A block of code as it is registered: its frame table, and the offsets at which its stack depth
changes, in ascending order. -/
structure Block where
  start : Addr
  stop : Addr
  table : FrameTable
  changes : List (Addr × UInt32)
deriving DecidableEq

namespace Block

def region (b : Block) : CodeRegion := ⟨⟨b.start, b.stop - b.start⟩, b.table⟩

def Covers (b : Block) (a : Addr) : Prop := b.start ≤ a ∧ a < b.stop

instance (b : Block) (a : Addr) : Decidable (b.Covers a) :=
  inferInstanceAs (Decidable (b.start ≤ a ∧ a < b.stop))

/-- The depth of the last change up to an address. -/
def depthAt? (b : Block) (a : Addr) : Option UInt32 :=
  (b.changes.reverse.find? fun c => b.start.toNat + c.1.toNat ≤ a.toNat).map (·.2)

/-- The block is not empty, and its depth changes inside it or right behind it. -/
structure Ordered (b : Block) : Prop where
  nonempty : b.start < b.stop
  ascending : b.changes.Pairwise fun c d => c.1 ≤ d.1
  inside : ∀ c ∈ b.changes, c.1 ≤ b.stop - b.start

def Disjoint (b c : Block) : Prop := b.stop ≤ c.start ∨ c.stop ≤ b.start

/-- The depth regions that the block comes to. -/
def runs (b : Block) : List DepthRegion := Registry.depthRuns b.start b.stop b.changes.reverse

instance : Std.Symm Disjoint := ⟨fun _ _ h => Or.symm h⟩

namespace Ordered

variable {b c : Block} (h : b.Ordered)
include h

theorem descending : Registry.Descending b.start b.stop b.changes.reverse := by
  refine ⟨List.pairwise_reverse.mpr h.ascending, fun c hc => ?_⟩
  have hle := h.inside c (List.mem_reverse.mp hc)
  rw [UInt64.le_iff_toNat_le, UInt64.toNat_sub_of_le _ _ (UInt64.le_of_lt h.nonempty)] at hle
  have := UInt64.lt_iff_toNat_lt.mp h.nonempty
  omega

theorem size_region : b.region.size.toNat = b.stop.toNat - b.start.toNat :=
  UInt64.toNat_sub_of_le _ _ (UInt64.le_of_lt h.nonempty)

theorem region_contains_iff (a : Addr) : b.region.contains a = true ↔ b.Covers a := by
  have hlt := UInt64.lt_iff_toNat_lt.mp h.nonempty
  rw [Span.contains_iff, h.size_region, Covers, UInt64.le_iff_toNat_le, UInt64.lt_iff_toNat_lt]
  show b.start.toNat ≤ _ ∧ _ < b.start.toNat + _ ↔ _
  omega

/-- The depth regions of a block lie inside it. -/
theorem mem_runs {r : DepthRegion} (hr : r ∈ b.runs) : b.start.toNat ≤ r.start.toNat ∧
    0 < r.size.toNat ∧ r.start.toNat + r.size.toNat ≤ b.stop.toNat := h.descending.runs.1 r hr

theorem covers_of_runs {r : DepthRegion} (hr : r ∈ b.runs) {a : Addr} (ha : r.contains a = true) :
    b.Covers a := by
  have hin := h.mem_runs hr
  rw [Span.contains_iff] at ha
  rw [Covers, UInt64.le_iff_toNat_le, UInt64.lt_iff_toNat_lt]
  omega

theorem covers_start {r : DepthRegion} (hr : r ∈ b.runs) : b.Covers r.start := by
  refine h.covers_of_runs hr ((Span.contains_iff _ _).mpr ?_)
  have := h.mem_runs hr
  omega

theorem not_disjoint_self : ¬ b.Disjoint b := by
  have := UInt64.lt_iff_toNat_lt.mp h.nonempty
  rintro (hle | hle) <;> rw [UInt64.le_iff_toNat_le] at hle <;> omega

end Ordered

/-- No address lies in two blocks. -/
theorem Covers.eq_of_disjoint {b c : Block} {a : Addr} (hb : b.Covers a) (hc : c.Covers a) :
    ¬ b.Disjoint c := by
  simp only [Covers, UInt64.le_iff_toNat_le, UInt64.lt_iff_toNat_lt] at hb hc
  rintro (hle | hle) <;> rw [UInt64.le_iff_toNat_le] at hle <;> omega

end Block

/-! ## Registries of blocks -/

/-- What is registered is the live blocks, and nothing else. -/
structure Registry.Lists (m : Registry) (live : List Block) : Prop where
  ordered : ∀ b ∈ live, b.Ordered
  disjoint : live.Pairwise Block.Disjoint
  code : ∀ k v, m.code k = some v ↔ ∃ b ∈ live, b.start = k ∧ (b.region.size, b.table) = v
  depth : ∀ k v, m.depth k = some v ↔
    ∃ b ∈ live, ∃ r ∈ b.runs, r.start = k ∧ (r.size, r.depth) = v

namespace Registry.Lists

variable {m : Registry} {live : List Block}

theorem empty : Registry.empty.Lists [] := by
  refine ⟨fun _ hb => absurd hb List.not_mem_nil, .nil, fun k v => ?_, fun k v => ?_⟩ <;>
    simp [Registry.empty]

theorem eq_or_disjoint (h : m.Lists live) {b c : Block} (hb : b ∈ live) (hc : c ∈ live) :
    b = c ∨ b.Disjoint c :=
  or_iff_not_imp_left.mpr fun hne =>
    h.disjoint.forall hb hc hne

theorem eq_of_covers (h : m.Lists live) {b c : Block} (hb : b ∈ live) (hc : c ∈ live) {a : Addr}
    (hba : b.Covers a) (hca : c.Covers a) : b = c :=
  (h.eq_or_disjoint hb hc).resolve_right (hba.eq_of_disjoint hca)

theorem nodup (h : m.Lists live) : live.Nodup := by
  refine h.disjoint.imp_of_mem fun hb _ hd heq => ?_
  subst heq
  exact (h.ordered _ hb).not_disjoint_self hd

/-- Depth regions that are registered lie apart, in one block or in two. -/
theorem apart (h : m.Lists live) {b c : Block} (hb : b ∈ live) (hc : c ∈ live) {r q : DepthRegion}
    (hr : r ∈ b.runs) (hq : q ∈ c.runs) (hne : r ≠ q) : Apart r q := by
  have hrin := (h.ordered b hb).mem_runs hr
  have hqin := (h.ordered c hc).mem_runs hq
  rcases h.eq_or_disjoint hb hc with rfl | hle | hle
  · exact (h.ordered b hb).descending.runs.2.forall hr hq hne
  · rw [UInt64.le_iff_toNat_le] at hle
    exact Or.inl (by omega)
  · rw [UInt64.le_iff_toNat_le] at hle
    exact Or.inr (by omega)

theorem code_region_iff (h : m.Lists live) (r : CodeRegion) :
    m.code r.start = some (r.size, r.table) ↔ ∃ b ∈ live, r = b.region := by
  rw [h.code]
  refine exists_congr fun b => and_congr_right fun _ => ⟨?_, by rintro rfl; exact ⟨rfl, rfl⟩⟩
  rintro ⟨hstart, hvalue⟩
  obtain ⟨hsize, htable⟩ := Prod.mk.inj hvalue
  obtain ⟨⟨start, size⟩, table⟩ := r
  obtain rfl : b.start = start := hstart
  obtain rfl : b.region.size = size := hsize
  obtain rfl : b.table = table := htable
  rfl

theorem depth_region_iff (h : m.Lists live) (r : DepthRegion) :
    m.depth r.start = some (r.size, r.depth) ↔ ∃ b ∈ live, r ∈ b.runs := by
  rw [h.depth]
  refine exists_congr fun b => and_congr_right fun _ => ⟨?_, fun hr => ⟨r, hr, rfl, rfl⟩⟩
  rintro ⟨q, hq, hstart, hvalue⟩
  obtain ⟨hsize, hdepth⟩ := Prod.mk.inj hvalue
  obtain ⟨⟨start, size⟩, depth⟩ := r
  obtain rfl : q.start = start := hstart
  obtain rfl : q.size = size := hsize
  obtain rfl : q.depth = depth := hdepth
  exact hq

/-! ## Looking up -/

/-- A block answers for the addresses in it. -/
theorem coversCode_iff (h : m.Lists live) (a : Addr) (r : CodeRegion) :
    m.CoversCode a r ↔ ∃ b ∈ live, b.Covers a ∧ r = b.region := by
  constructor
  · rintro ⟨hcode, -, hcontains⟩
    obtain ⟨b, hb, rfl⟩ := (h.code_region_iff r).mp hcode
    exact ⟨b, hb, ((h.ordered b hb).region_contains_iff a).mp hcontains, rfl⟩
  · rintro ⟨b, hb, hcovers, rfl⟩
    have hcode := (h.code_region_iff b.region).mpr ⟨b, hb, rfl⟩
    refine ⟨hcode, ⟨⟨Option.isSome_of_eq_some hcode, hcovers.1⟩, ?_⟩,
      ((h.ordered b hb).region_contains_iff a).mpr hcovers⟩
    -- a block that starts in between would cover its start with this one
    rintro k ⟨hk, hka⟩
    obtain ⟨v, hv⟩ := Option.isSome_iff_exists.mp hk
    obtain ⟨c, hc, rfl, -⟩ := (h.code k v).mp hv
    by_contra hlt
    have hcc : c.Covers c.start := ⟨UInt64.le_refl _, (h.ordered c hc).nonempty⟩
    have hbc : b.Covers c.start :=
      ⟨UInt64.le_of_lt (UInt64.not_le.mp hlt), UInt64.lt_of_le_of_lt hka hcovers.2⟩
    rw [h.eq_of_covers hc hb hcc hbc] at hlt
    exact hlt (UInt64.le_refl _)

theorem coversDepth_iff (h : m.Lists live) (a : Addr) (r : DepthRegion) :
    m.CoversDepth a r ↔ ∃ b ∈ live, r ∈ b.runs ∧ r.contains a = true := by
  constructor
  · rintro ⟨hdepth, -, hcontains⟩
    obtain ⟨b, hb, hr⟩ := (h.depth_region_iff r).mp hdepth
    exact ⟨b, hb, hr, hcontains⟩
  · rintro ⟨b, hb, hr, hcontains⟩
    have hdepth := (h.depth_region_iff r).mpr ⟨b, hb, hr⟩
    have hin := (Span.contains_iff _ a).mp hcontains
    refine ⟨hdepth, ⟨⟨Option.isSome_of_eq_some hdepth, ?_⟩, ?_⟩, hcontains⟩
    · exact UInt64.le_iff_toNat_le.mpr hin.1
    · -- a region that starts in between would not lie apart from this one
      rintro k ⟨hk, hka⟩
      obtain ⟨v, hv⟩ := Option.isSome_iff_exists.mp hk
      obtain ⟨c, hc, q, hq, rfl, -⟩ := (h.depth k v).mp hv
      have hsize := ((h.ordered c hc).mem_runs hq).2.1
      rw [UInt64.le_iff_toNat_le] at hka ⊢
      by_contra hlt
      have hne : r ≠ q := fun heq => hlt (Nat.le_of_eq (heq ▸ rfl))
      rcases h.apart hb hc hr hq hne with hle | hle <;> omega

/-- The depth at an address is that of the last change up to there, in the block it lies in. -/
theorem depth_covers_iff (h : m.Lists live) (a : Addr) (d : UInt32) :
    (∃ r, m.CoversDepth a r ∧ r.depth = d) ↔ ∃ b ∈ live, b.Covers a ∧ b.depthAt? a = some d := by
  constructor
  · rintro ⟨r, hcovers, rfl⟩
    obtain ⟨b, hb, hr, hcontains⟩ := (h.coversDepth_iff a r).mp hcovers
    have hba := (h.ordered b hb).covers_of_runs hr hcontains
    exact ⟨b, hb, hba, ((h.ordered b hb).descending.covering hba.2 _).mp ⟨r, hr, hcontains, rfl⟩⟩
  · rintro ⟨b, hb, hba, hd⟩
    obtain ⟨r, hr, hcontains, rfl⟩ := ((h.ordered b hb).descending.covering hba.2 d).mpr hd
    exact ⟨r, (h.coversDepth_iff a r).mpr ⟨b, hb, hr, hcontains⟩, rfl⟩

/-! ## Registering and forgetting -/

theorem register (h : m.Lists live) {b : Block} (hb : b.Ordered)
    (hdisjoint : ∀ c ∈ live, b.Disjoint c) :
    (b.runs.foldl addDepth (m.addCode b.region)).Lists (b :: live) := by
  have hbs : b.Covers b.start := ⟨UInt64.le_refl _, hb.nonempty⟩
  refine ⟨List.forall_mem_cons.mpr ⟨hb, h.ordered⟩, List.pairwise_cons.mpr ⟨hdisjoint, h.disjoint⟩,
    fun k v => ?_, fun k v => ?_⟩
  · rw [foldl_addDepth_code, List.exists_mem_cons_iff, ← h.code]
    show Function.update m.code b.start (some (b.region.size, b.table)) k = some v ↔ _
    by_cases hk : k = b.start
    · subst hk
      have hfree : m.code b.start ≠ some v := fun hcode => by
        obtain ⟨c, hc, hstart, -⟩ := (h.code _ _).mp hcode
        have hcs : c.Covers b.start := hstart ▸ ⟨UInt64.le_refl _, (h.ordered c hc).nonempty⟩
        exact hbs.eq_of_disjoint hcs (hdisjoint c hc)
      rw [Function.update_self, Option.some.injEq, or_iff_left hfree, and_iff_right rfl]
    · rw [Function.update_of_ne hk]
      exact (or_iff_right fun hstart => hk hstart.1.symm).symm
  · have hne : b.runs.Pairwise fun r q => r.start ≠ q.start := by
      refine hb.descending.runs.2.imp_of_mem fun {r q} hr hq hapart heq => ?_
      have := hb.mem_runs hr
      have := hb.mem_runs hq
      unfold Apart at hapart
      rw [heq] at hapart
      omega
    rw [foldl_addDepth_depth hne, List.exists_mem_cons_iff, ← h.depth]
    show _ ∨ _ ∧ m.depth k = some v ↔ _
    refine or_congr_right (and_iff_right_of_imp fun hdepth r hr heq => ?_)
    obtain ⟨c, hc, q, hq, rfl, -⟩ := (h.depth k v).mp hdepth
    exact (hb.covers_start hr).eq_of_disjoint (heq ▸ (h.ordered c hc).covers_start hq)
      (hdisjoint c hc)

theorem free (h : m.Lists live) {b : Block} (hb : b ∈ live) :
    ((m.removeCode b.start).clearDepths b.start.toNat (b.stop.toNat - b.start.toNat)).Lists
      (live.erase b) := by
  have hmem : ∀ c, c ∈ live.erase b ↔ c ≠ b ∧ c ∈ live := fun c => h.nodup.mem_erase_iff
  have hbs : b.Covers b.start := ⟨UInt64.le_refl _, (h.ordered b hb).nonempty⟩
  have hlt := UInt64.lt_iff_toNat_lt.mp (h.ordered b hb).nonempty
  refine ⟨fun c hc => h.ordered c ((hmem c).mp hc).2, h.disjoint.sublist List.erase_sublist,
    fun k v => ?_, fun k v => ?_⟩
  · show Function.update m.code b.start none k = some v ↔ _
    simp only [hmem, and_assoc]
    by_cases hk : k = b.start
    · subst hk
      rw [Function.update_self]
      refine iff_of_false (by simp) ?_
      rintro ⟨c, hne, hc, hstart, -⟩
      have hcs : c.Covers b.start := hstart ▸ ⟨UInt64.le_refl _, (h.ordered c hc).nonempty⟩
      exact hne (h.eq_of_covers hc hb hcs hbs)
    · rw [Function.update_of_ne hk, h.code]
      refine exists_congr fun c => ⟨fun ⟨hc, hstart, hvalue⟩ => ⟨?_, hc, hstart, hvalue⟩, And.right⟩
      rintro rfl
      exact hk hstart.symm
  · have hcovers : (b.start.toNat ≤ k.toNat ∧ k.toNat < b.start.toNat +
        (b.stop.toNat - b.start.toNat)) ↔ b.Covers k := by
      rw [Block.Covers, UInt64.le_iff_toNat_le, UInt64.lt_iff_toNat_lt]
      omega
    have hcleared : ((m.removeCode b.start).clearDepths b.start.toNat
        (b.stop.toNat - b.start.toNat)).depth k = if b.Covers k then none else m.depth k :=
      if_congr hcovers rfl rfl
    simp only [hcleared, hmem, and_assoc]
    by_cases hk : b.Covers k
    · rw [if_pos hk]
      refine iff_of_false (by simp) ?_
      rintro ⟨c, hne, hc, r, hr, rfl, -⟩
      exact hne (h.eq_of_covers hc hb ((h.ordered c hc).covers_start hr) hk)
    · rw [if_neg hk, h.depth]
      refine exists_congr fun c =>
        ⟨fun ⟨hc, r, hr, hstart, hvalue⟩ => ⟨?_, hc, r, hr, hstart, hvalue⟩, And.right⟩
      rintro rfl
      exact hk (hstart ▸ (h.ordered c hc).covers_start hr)

end Registry.Lists

/-! ## Sessions of blocks -/

/-- The commands that look something up, or that handles come and go with. -/
def Command.Reads : Command → Prop
  | .reader _ _ | .pin _ _ | .unpinAll => True
  | .writer .newReader | .writer .settings | .writer .text => True
  | .writer _ => False

theorem Registry.Step.of_reads {m m' : Registry} {s : Session} {c : Command} {reply : Reply}
    (h : m.Step s c reply m') (hc : c.Reads) : m' = m := by
  cases c with
  | reader n command => exact h.1
  | pin n command => exact h.1
  | unpinAll => exact h.2
  | writer command =>
      by_cases hwriter : s.writer = true
      · rw [step_writer hwriter] at h
        cases command with
        | newReader => exact h
        | settings => exact h
        | text => exact h
        | _ => exact hc.elim
      · exact ((step_no_writer hwriter).mp h).2

namespace Session

/-! ## The writer stays -/

theorem settle_writer (s : Session) : s.settle.writer = s.writer := by
  unfold settle
  split <;> rfl

theorem takePins_writer (count : Nat) : ∀ s : Session, (s.takePins count).writer = s.writer := by
  induction count with
  | zero => exact fun _ => rfl
  | succ count ih =>
      intro s
      refine (ih s.takePin.2).trans ?_
      unfold takePin
      split <;> rfl

theorem dropPin_writer (s : Session) (n : Nat) : (s.dropPin n).writer = s.writer := by
  unfold dropPin
  split
  · rfl
  · exact settle_writer _

theorem step_writer_of_reads (s : Session) {c : Command} (hc : c.Reads) :
    (s.step c).2.writer = s.writer := by
  cases c with
  | reader n command =>
      unfold step
      dsimp only
      split
      · cases command with
        | drop => exact settle_writer _
        | pin =>
            have hone := takePins_writer 1 s
            unfold stepReader
            dsimp only
            split <;> (rename_i htake; simpa [takePins, htake] using hone)
        | pinMany count => exact takePins_writer count s
        | _ => rfl
      · rfl
  | pin n command =>
      unfold step
      dsimp only
      split
      · rfl
      · cases command with
        | finish => exact dropPin_writer s n
        | unpin => exact dropPin_writer s n
        | _ => rfl
  | unpinAll => exact settle_writer _
  | writer command =>
      unfold step
      dsimp only
      split
      · cases command with
        | newReader => rfl
        | settings => rfl
        | text => rfl
        | _ => exact hc.elim
      · rfl

/-- A command of the writer that leaves the writer there leaves him there in a step as well. -/
theorem step_writer_of_writes {s : Session} {c : WriterCommand} (hwriter : s.writer = true)
    (hstays : (s.stepWriter c).2.writer = s.writer) : (s.step (.writer c)).2.writer = true := by
  unfold step
  dsimp only
  rw [if_pos hwriter]
  exact hstays.trans hwriter

/-- A session whose writer registers blocks and forgets them, and the blocks that are live. A block
is registered by its code and then its stack depths, both of which were accepted. -/
inductive Serves (settings : Settings) (allocator : Allocator) : Session → List Block → Prop
  | start : Serves settings allocator (start settings allocator) []
  | read {s : Session} {live : List Block} {c : Command} : Serves settings allocator s live →
    c.Reads → Serves settings allocator (s.step c).2 live
  | register {s s' : Session} {live : List Block} {b : Block} {cs : List Command} :
    Serves settings allocator s live → b.Ordered → (∀ c ∈ live, b.Disjoint c) →
    (s.step (.writer (.addCode b.region))).1 = .accepted → (∀ c ∈ cs, c.Reads) →
    (s.step (.writer (.addCode b.region))).2.run cs = s' →
    (s'.step (.writer (.addDepthMap b.start b.stop b.changes))).1 = .accepted →
    Serves settings allocator (s'.step (.writer (.addDepthMap b.start b.stop b.changes))).2
      (b :: live)
  | free {s : Session} {live : List Block} {b : Block} : Serves settings allocator s live →
    b ∈ live → Serves settings allocator (s.step (.writer (.freeBlock b.start b.stop))).2
      (live.erase b)

variable {settings : Settings} {allocator : Allocator} {s : Session} {sc : Scene}
  {live : List Block}

theorem Reached.run_reads (h : Reached settings allocator s sc) {cs : List Command}
    (hcs : ∀ c ∈ cs, c.Reads) : ∃ sc', Reached settings allocator (s.run cs) sc' ∧
      sc'.view.registry = sc.view.registry ∧ (s.run cs).writer = s.writer := by
  induction cs generalizing s sc with
  | nil => exact ⟨sc, h, rfl, rfl⟩
  | cons c cs ih =>
      obtain ⟨hc, hcs⟩ := List.forall_mem_cons.mp hcs
      obtain ⟨sc₁, h₁, hstep⟩ := h.step c
      obtain ⟨sc', h', hreg, hwriter⟩ := ih h₁ hcs
      exact ⟨sc', h', hreg.trans (hstep.of_reads hc), hwriter.trans (s.step_writer_of_reads hc)⟩

/-- The index lists the live blocks at any time. -/
theorem Serves.lists (h : Serves settings allocator s live) :
    ∃ sc, Reached settings allocator s sc ∧ sc.view.registry.Lists live ∧ s.writer = true := by
  induction h with
  | start =>
      refine ⟨opening, (Leads.refl (start_sound settings allocator)).reached
        (start_settled settings allocator), ?_, rfl⟩
      rw [View.registry_empty rfl rfl]
      exact .empty
  | @read s live c _ hc ih =>
      obtain ⟨sc, hreached, hlists, hwriter⟩ := ih
      obtain ⟨sc', hreached', hstep⟩ := hreached.step c
      exact ⟨sc', hreached', hstep.of_reads hc ▸ hlists, (s.step_writer_of_reads hc).trans hwriter⟩
  | @register s s' live b cs _ hb hdisjoint hcode hcs hrun hdepth ih =>
      obtain ⟨sc, hreached, hlists, hwriter⟩ := ih
      obtain ⟨sc₁, hreached₁, hstep₁⟩ := hreached.step (.writer (.addCode b.region))
      have hwriter₁ : (s.step (.writer (.addCode b.region))).2.writer = true :=
        step_writer_of_writes hwriter rfl
      obtain ⟨sc₂, hreached₂, hreg₂, hwriter₂⟩ := hreached₁.run_reads hcs
      rw [hrun] at hreached₂ hwriter₂
      rw [hwriter₁] at hwriter₂
      obtain ⟨sc₃, hreached₃, hstep₃⟩ :=
        hreached₂.step (.writer (.addDepthMap b.start b.stop b.changes))
      have hwriter₃ :
          (s'.step (.writer (.addDepthMap b.start b.stop b.changes))).2.writer = true :=
        step_writer_of_writes hwriter₂ rfl
      -- both replies say that everything was registered
      rw [Registry.step_writer hwriter, hcode] at hstep₁
      rw [Registry.step_writer hwriter₂, hdepth, hreg₂] at hstep₃
      have hadded : sc₁.view.registry = sc.view.registry.addCode b.region :=
        Registry.Registers.eq_of_accepted hstep₁
      have hmapped : sc₃.view.registry = b.runs.foldl Registry.addDepth sc₁.view.registry := by
        rcases hstep₃ with ⟨n, -, heq, ⟨-, rfl⟩ | ⟨hfailed, -⟩⟩
        · rwa [List.take_length] at heq
        · cases hfailed
      refine ⟨sc₃, hreached₃, ?_, hwriter₃⟩
      rw [hmapped, hadded]
      exact hlists.register hb hdisjoint
  | @free s live b _ hb ih =>
      obtain ⟨sc, hreached, hlists, hwriter⟩ := ih
      obtain ⟨sc', hreached', hstep⟩ := hreached.step (.writer (.freeBlock b.start b.stop))
      rw [Registry.step_writer hwriter] at hstep
      exact ⟨sc', hreached', hstep.2 ▸ hlists.free hb, step_writer_of_writes hwriter rfl⟩

/-! ## What live blocks answer for -/

/-- What a session answers for an address, if its index lists the live blocks. -/
structure Answers (s : Session) (live : List Block) : Prop where
  code : ∀ a r, s.index.codeAt? a = some r ↔ ∃ b ∈ live, b.Covers a ∧ r = b.region
  depth : ∀ a r, s.index.depthRegionAt? a = some r ↔ ∃ b ∈ live, r ∈ b.runs ∧ r.contains a = true
  depthAt : ∀ a d, (s.index.depthRegionAt? a).map (·.depth) = some d ↔
    ∃ b ∈ live, b.Covers a ∧ b.depthAt? a = some d
  depthRegions : ∀ r, r ∈ s.index.depthRegions ↔ ∃ b ∈ live, r ∈ b.runs

theorem Serves.answers (h : Serves settings allocator s live) : s.Answers live := by
  obtain ⟨sc, hreached, hlists, -⟩ := h.lists
  have hshows := hreached.leads.sound.index.shows
  rw [hreached.leads.sound.index.registry_eq] at hshows
  refine ⟨fun a r => (hshows.codeAt a r).trans (hlists.coversCode_iff a r),
    fun a r => (hshows.depthRegionAt a r).trans (hlists.coversDepth_iff a r), fun a d => ?_,
    fun r => (hshows.depthRegions.2 r).trans (hlists.depth_region_iff r)⟩
  rw [Option.map_eq_some_iff, ← hlists.depth_covers_iff]
  simp only [hshows.depthRegionAt]

/-- An address is answered for by the live block that it lies in: its code region, and the depth of
its last change up to there. When a block is forgotten, its depth regions go, all of them and no
others, and no other block answers differently. -/
theorem serves_shows (h : Serves settings allocator s live) :
    (∀ a r, s.index.codeAt? a = some r ↔ ∃ b ∈ live, b.Covers a ∧ r = b.region) ∧
    (∀ a d, (s.index.depthRegionAt? a).map (·.depth) = some d ↔
      ∃ b ∈ live, b.Covers a ∧ b.depthAt? a = some d) ∧
    ∀ b ∈ live, ∀ s', (s.step (.writer (.freeBlock b.start b.stop))).2 = s' →
      (∀ r, r ∈ s'.index.depthRegions ↔ r ∈ s.index.depthRegions ∧ ¬ b.Covers r.start) ∧
      ∀ c ∈ live, c ≠ b → ∀ a, c.Covers a → s'.index.codeAt? a = s.index.codeAt? a ∧
        s'.index.depthRegionAt? a = s.index.depthRegionAt? a := by
  have hanswers := h.answers
  refine ⟨hanswers.code, hanswers.depthAt, fun b hb s' hs' => ?_⟩
  obtain ⟨sc, -, hlists, -⟩ := h.lists
  have hanswers' : s'.Answers (live.erase b) := hs' ▸ (Serves.free h hb).answers
  have hmem : ∀ c, c ∈ live.erase b ↔ c ≠ b ∧ c ∈ live := fun c => hlists.nodup.mem_erase_iff
  refine ⟨fun r => ?_, fun c hc hne a hca => ⟨Option.ext fun r => ?_, Option.ext fun r => ?_⟩⟩
  · rw [hanswers'.depthRegions, hanswers.depthRegions]
    simp only [hmem]
    constructor
    · rintro ⟨c, ⟨hne, hc⟩, hr⟩
      refine ⟨⟨c, hc, hr⟩, fun hcovers => hne ?_⟩
      exact hlists.eq_of_covers hc hb ((hlists.ordered c hc).covers_start hr) hcovers
    · rintro ⟨⟨c, hc, hr⟩, hnot⟩
      refine ⟨c, ⟨?_, hc⟩, hr⟩
      rintro rfl
      exact hnot ((hlists.ordered c hc).covers_start hr)
  · rw [hanswers'.code, hanswers.code]
    simp only [hmem]
    refine exists_congr fun d => ⟨fun ⟨hd, hda, hr⟩ => ⟨hd.2, hda, hr⟩, fun ⟨hd, hda, hr⟩ => ?_⟩
    exact ⟨⟨hlists.eq_of_covers hd hc hda hca ▸ hne, hd⟩, hda, hr⟩
  · rw [hanswers'.depth, hanswers.depth]
    simp only [hmem]
    refine exists_congr fun d => ⟨fun ⟨hd, hr, hra⟩ => ⟨hd.2, hr, hra⟩, fun ⟨hd, hr, hra⟩ => ?_⟩
    have hda := (hlists.ordered d hd).covers_of_runs hr hra
    exact ⟨⟨hlists.eq_of_covers hd hc hda hca ▸ hne, hd⟩, hr, hra⟩

/-- Of two blocks side by side, the one that was not forgotten goes on answering, and only that. -/
theorem right_block_stays :
    let left : Block := ⟨16, 32, ⟨#[]⟩, [(0, 2), (8, 4)]⟩
    let right : Block := ⟨32, 48, ⟨#[]⟩, [(0, 6)]⟩
    let s := (start {} .generous).run
      [.writer (.addCode left.region), .reader 0 .pin,
        .writer (.addDepthMap left.start left.stop left.changes), .writer (.addCode right.region),
        .writer (.addDepthMap right.start right.stop right.changes),
        .writer (.freeBlock left.start left.stop)]
    (s.index.depthRegionAt? 40).map (·.depth) = some 6 ∧ s.index.codeAt? 20 = none := by
  intro left right s
  have hleft : left.Ordered := ⟨by decide, by simp [left], by simp [left]⟩
  have hright : right.Ordered := ⟨by decide, by simp [right], by simp [right]⟩
  have hok : ∀ {r : Reply}, (match r with | .accepted => true | _ => false) = true →
      r = .accepted := by
    rintro ⟨⟩ <;> simp
  have hpins : ∀ c ∈ [Command.reader 0 .pin], c.Reads := by simp [Command.Reads]
  have hnone : ∀ c ∈ ([] : List Command), c.Reads := by simp
  have hapart : ∀ c ∈ [left], right.Disjoint c := by simp [Block.Disjoint, left, right]
  have h₀ : Serves {} .generous (start {} .generous) [] := .start
  have h₁ := Serves.register (b := left) h₀ hleft (by simp) (hok (by decide +kernel)) hpins rfl
    (hok (by decide +kernel))
  have h₂ := Serves.register (b := right) h₁ hright hapart (hok (by decide +kernel)) hnone rfl
    (hok (by decide +kernel))
  have h : Serves {} .generous s [right] := Serves.free (b := left) h₂ (by decide)
  obtain ⟨hcode, hdepth, -⟩ := serves_shows h
  refine ⟨(hdepth 40 6).mpr ⟨right, by decide, by decide, by decide⟩, ?_⟩
  refine Option.eq_none_iff_forall_ne_some.mpr fun r hr => ?_
  obtain ⟨b, hb, hcovers, -⟩ := (hcode 20 r).mp hr
  rw [List.mem_singleton.mp hb] at hcovers
  exact absurd hcovers (by decide)

end Session

end JitIndex
