import JitIndex.Proofs.DepthMaps

/-!
# Depth maps that run over their block

A depth map is walked from its last change to its first one, and every change
becomes the end of the one before it, also when it lies behind the end of the
block. So a change behind the end leaves no region itself, but the one before
it reaches up to there, and if that one is behind the end as well, its region
has nothing to do with the block.

- A region starts in the block or behind it, never before it, and it lies in
  the block exactly if the next change does (`DepthMap.holds_iff`).
- So all regions lie in the block if no change is behind its end. Otherwise one
  of them does not, unless all changes are at one place
  (`DepthMap.holds_all_iff`).
- When the block is forgotten, what starts behind its end is not
  (`Session.overrun_outlives_block`).
-/

namespace JitIndex

namespace DepthMap

variable {d : DepthMap} {i j : Nat} {r : DepthRegion}

/-! ## The regions of a block -/

/-- A region lies in the block. -/
def Holds (d : DepthMap) (r : DepthRegion) : Prop :=
  d.start.toNat ≤ r.start.toNat ∧ r.start.toNat + r.size.toNat ≤ d.stop.toNat

theorem place_length (d : DepthMap) : d.place d.changes.length = d.stop := by simp [place]

theorem start_le_place (hi : i < d.changes.length) : d.start ≤ d.place i := by
  have hplace : d.place i = d.start.addSat d.changes[i].1 := by simp [place, hi]
  have hword : d.start.toNat < UInt64.size := d.start.toNat_lt_size
  rw [hplace, UInt64.le_iff_toNat_le, Addr.toNat_addSat]
  omega

/-- A region goes from its change up to the next one, and does not start before the block. -/
theorem span_of_region? (h : d.region? i = some r) :
    r.start = d.place i ∧ r.start.toNat + r.size.toNat = (d.place (i + 1)).toNat ∧
      d.start ≤ r.start := by
  have hin := lt_length_of_region? h
  obtain ⟨-, -, hlt, rfl⟩ := region?_eq_some_iff.mp h
  have hsize := UInt64.toNat_sub_of_le _ _ (UInt64.le_of_lt hlt)
  rw [UInt64.lt_iff_toNat_lt] at hlt
  refine ⟨rfl, ?_, start_le_place hin⟩
  dsimp only
  omega

theorem holds_iff (h : d.region? i = some r) : d.Holds r ↔ d.place (i + 1) ≤ d.stop := by
  obtain ⟨-, hend, hstart⟩ := span_of_region? h
  rw [Holds, hend, ← UInt64.le_iff_toNat_le, ← UInt64.le_iff_toNat_le]
  exact and_iff_right hstart

/-- If all regions lie in the block, a change behind its end is where the one before it is. -/
theorem place_eq_of_holds_all (h : d.Ascending) (hall : ∀ r ∈ d.regionsFrom 0, d.Holds r)
    (hi : i + 1 < d.changes.length) (hover : d.stop < d.place (i + 1)) :
    d.place i = d.place (i + 1) := by
  have hle : d.place i ≤ d.place (i + 1) := place_mono h (Nat.le_succ i) hi
  by_contra hne
  have hlt : d.place i < d.place (i + 1) := UInt64.lt_of_le_of_ne hle hne
  have hregion := region?_eq_some_iff.mpr
    ⟨_, List.getElem?_eq_getElem (Nat.lt_of_succ_lt hi), hlt, rfl⟩
  have hin := (holds_iff hregion).mp
    (hall _ (mem_regionsFrom_iff.mpr ⟨i, Nat.zero_le _, hregion⟩))
  exact UInt64.not_lt.mpr hin hover

/-- All regions lie in the block exactly if no change is behind its end, or all changes are at one
place. -/
theorem holds_all_iff (h : d.Ascending) :
    (∀ r ∈ d.regionsFrom 0, d.Holds r) ↔
      (∀ i < d.changes.length, d.place i ≤ d.stop) ∨
        ∀ i < d.changes.length, d.place i = d.place 0 := by
  constructor
  · intro hall
    by_cases hinside : ∀ i < d.changes.length, d.place i ≤ d.stop
    · exact .inl hinside
    · obtain ⟨j, hj, hover⟩ : ∃ j < d.changes.length, d.stop < d.place j := by
        simpa only [not_forall, UInt64.not_le, exists_prop] using hinside
      -- down to the first change all are behind the end, and so are all from there on
      have hfirst : d.stop < d.place 0 := by
        induction j with
        | zero => exact hover
        | succ j ih =>
            refine ih (Nat.lt_of_succ_lt hj) ?_
            rwa [place_eq_of_holds_all h hall hj hover]
      refine .inr fun i hi => ?_
      induction i with
      | zero => rfl
      | succ i ih =>
          have hle : d.place 0 ≤ d.place (i + 1) := place_mono h (Nat.zero_le _) hi
          rw [← place_eq_of_holds_all h hall hi (UInt64.lt_of_lt_of_le hfirst hle)]
          exact ih (Nat.lt_of_succ_lt hi)
  · intro hplaces r hr
    obtain ⟨i, -, hi⟩ := mem_regionsFrom_iff.mp hr
    have hin := lt_length_of_region? hi
    obtain ⟨-, -, hlt, -⟩ := region?_eq_some_iff.mp hi
    refine (holds_iff hi).mpr ?_
    rcases Nat.lt_or_eq_of_le (Nat.succ_le_of_lt hin) with hnext | hlast
    · rcases hplaces with hinside | hsame
      · exact hinside _ hnext
      · rw [hsame i hin, hsame (i + 1) hnext] at hlt
        exact absurd hlt (UInt64.lt_irrefl _)
    · rw [Nat.succ_eq_add_one] at hlast
      rw [hlast, place_length]
      exact UInt64.le_refl _

/-- Two changes behind the end of the block. -/
example : (⟨16, 32, [(0, 1), (24, 2), (40, 3)]⟩ : DepthMap).regionsFrom 0 =
    [⟨⟨16, 24⟩, 1⟩, ⟨⟨40, 16⟩, 2⟩] := by decide

end DepthMap

/-! ## Forgetting the block -/

namespace Session

variable {settings : Settings} {allocator : Allocator} {s : Session} {sc : Scene}

/-- The regions of a depth map are registered from some change on, from the first one unless one was
refused. -/
theorem addDepthMap_registers (h : Reached settings allocator s sc) (hwriter : s.writer = true)
    (d : DepthMap) : ∃ sc' n, Reached settings allocator (s.step d.command).2 sc' ∧
      ((s.step d.command).1 = .accepted ∧ n = 0 ∨ (s.step d.command).1 = .failed .allocation) ∧
      sc'.view.registry = (d.regionsFrom n).reverse.foldl Registry.addDepth sc.view.registry := by
  obtain ⟨sc', hreached, hstep⟩ := h.step d.command
  have hwrites := (Registry.step_writer hwriter).mp hstep
  unfold Registry.Writes at hwrites
  dsimp only at hwrites
  rw [DepthMap.depthRuns_eq] at hwrites
  obtain ⟨n, -, hreg, ⟨haccepted, rfl⟩ | ⟨hrefused, hn⟩⟩ := hwrites
  · rw [List.take_length] at hreg
    exact ⟨sc', 0, hreached, .inl ⟨haccepted, rfl⟩, hreg⟩
  · obtain ⟨i, -, htake⟩ := DepthMap.take_regions_of_getElem? (List.getElem?_eq_getElem hn)
    exact ⟨sc', i + 1, hreached, .inr hrefused, htake ▸ hreg⟩

/-- The depths of a block, and the block is forgotten at once. All regions lie in the block exactly
if no change is behind its end, or all changes are at one place. None starts before the block, and
nothing else is changed by their registration; those that start in the block are gone when it is
forgotten, and those that start behind its end are still there. -/
theorem overrun_outlives_block (hacts : Acts (start settings allocator) s)
    (hwriter : s.writer = true) {d : DepthMap} (hascending : d.Ascending)
    (hblock : d.start ≤ d.stop) :
    let s' := (s.step d.command).2
    let freed := (s'.step (.writer (.freeBlock d.start d.stop))).2
    ((∀ r ∈ d.regionsFrom 0, d.Holds r) ↔
      (∀ i < d.changes.length, d.place i ≤ d.stop) ∨
        ∀ i < d.changes.length, d.place i = d.place 0) ∧
    ∃ n, ((s.step d.command).1 = .accepted ∧ n = 0 ∨ (s.step d.command).1 = .failed .allocation) ∧
      (∀ k, (∀ r ∈ d.regionsFrom n, r.start ≠ k) →
        s'.index.registry.depth k = s.index.registry.depth k) ∧
      ∀ r ∈ d.regionsFrom n,
        s'.index.registry.depth r.start = some (r.size, r.depth) ∧ d.start ≤ r.start ∧
        freed.index.registry.depth r.start =
          if r.start < d.stop then none else some (r.size, r.depth) := by
  intro s' freed
  obtain ⟨sc, hreached⟩ := acts_reached settings allocator hacts
  obtain ⟨sc', n, hreached', hreply, hreg⟩ := addDepthMap_registers hreached hwriter d
  have hwriter' : s'.writer = true := step_writer_of_writes hwriter rfl
  obtain ⟨sc'', hreached'', hstep⟩ := hreached'.step (.writer (.freeBlock d.start d.stop))
  obtain ⟨-, hfreed⟩ := (Registry.step_writer hwriter').mp hstep
  have hne : (d.regionsFrom n).reverse.Pairwise fun r q => r.start ≠ q.start :=
    List.pairwise_reverse.mpr ((DepthMap.regionsFrom_pairwise hascending n).imp
      fun hlt => (UInt64.ne_of_lt hlt).symm)
  have hdepth := Registry.foldl_addDepth_depth hne sc.view.registry
  rw [← hreg] at hdepth
  rw [hreached.leads.sound.index.registry_eq, hreached'.leads.sound.index.registry_eq,
    hreached''.leads.sound.index.registry_eq]
  refine ⟨DepthMap.holds_all_iff hascending, n, hreply, ?_, ?_⟩
  · intro k hk
    have hothers : ∀ r ∈ (d.regionsFrom n).reverse, r.start ≠ k := fun r hr =>
      hk r (List.mem_reverse.mp hr)
    refine Option.ext fun v => ?_
    rw [hdepth, and_iff_right hothers]
    exact or_iff_right fun ⟨r, hr, hstart, _⟩ => hothers r hr hstart
  · intro r hr
    have hthere : sc'.view.registry.depth r.start = some (r.size, r.depth) :=
      (hdepth _ _).mpr (.inl ⟨r, List.mem_reverse.mpr hr, rfl, rfl⟩)
    obtain ⟨i, -, hi⟩ := DepthMap.mem_regionsFrom_iff.mp hr
    obtain ⟨-, -, hstart⟩ := DepthMap.span_of_region? hi
    refine ⟨hthere, hstart, ?_⟩
    rw [hfreed]
    show (if _ then none else sc'.view.registry.depth r.start) = _
    rw [hthere]
    refine if_congr ?_ rfl rfl
    rw [UInt64.le_iff_toNat_le] at hstart hblock
    rw [UInt64.lt_iff_toNat_lt]
    omega

/-- The last two changes are behind the end of the block. -/
theorem overrun_of_three_changes :
    let s := start {} .generous
    let d : DepthMap := ⟨16, 32, [(0, 3), (16, 1), (32, 2)]⟩
    let freed := ((s.step d.command).2.step (.writer (.freeBlock d.start d.stop))).2
    (s.step d.command).1 = .accepted ∧ d.Ascending ∧ d.start ≤ d.stop ∧
      freed.index.registry.depth 16 = none ∧ freed.index.registry.depth 32 = some (16, 1) := by
  intro s d freed
  have hok : (s.index.addDepthMap d.start d.stop d.changes).1 = .ok () := by
    decide +kernel +zetaReduce
  have haccepted : (s.step d.command).1 = .accepted :=
    (congrArg Prod.fst (step_writer_eq rfl _)).trans (congrArg accepted hok)
  have hascending : d.Ascending := by simp [DepthMap.Ascending, d]
  have hblock : d.start ≤ d.stop := by decide
  obtain ⟨-, n, hreply, -, hregions⟩ := overrun_outlives_block .refl rfl hascending hblock
  obtain rfl : n = 0 := by
    rcases hreply with ⟨-, hn⟩ | hrefused
    · exact hn
    · cases haccepted.symm.trans hrefused
  obtain ⟨-, -, hinside⟩ := hregions ⟨⟨16, 16⟩, 3⟩ (by decide)
  obtain ⟨-, -, hbehind⟩ := hregions ⟨⟨32, 16⟩, 1⟩ (by decide)
  exact ⟨haccepted, hascending, hblock, hinside, hbehind⟩

/-- With two changes at its end and behind it, there is nothing of the block, and a region behind it
that stays when the block is forgotten. -/
theorem overrun_of_two_changes :
    let d : DepthMap := ⟨16, 32, [(16, 1), (32, 2)]⟩
    let s := ((start {} .generous).step d.command).2
    let freed := (s.step (.writer (.freeBlock d.start d.stop))).2
    d.Ascending ∧ d.start ≤ d.stop ∧ s.index.depthRegions = [⟨⟨32, 16⟩, 1⟩] ∧
      ¬ d.Holds ⟨⟨32, 16⟩, 1⟩ ∧ freed.index.depthRegions = [⟨⟨32, 16⟩, 1⟩] := by
  intro d s freed
  refine ⟨by simp [DepthMap.Ascending, d], by decide, by decide +kernel +zetaReduce, ?_,
    by decide +kernel +zetaReduce⟩
  simp [DepthMap.Holds, d]

end Session

end JitIndex
