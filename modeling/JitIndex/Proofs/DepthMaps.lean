import JitIndex.Proofs.Blocks
import JitIndex.Proofs.Session.Editing
import JitIndex.Proofs.Session.Mirroring

/-!
# Depth maps

The stack depths of a block are registered from the last change to the first
one, each up to where the one after it starts. So a region can be told from the
number of its change alone (`DepthMap.region?`), and as long as the offsets
ascend no two of them start at one address, whether some are empty or clamped
at the end of memory or not.

Every region is registered on its own, and the allocator may refuse any of
them. Then the ones from the changes behind it are there, and nothing else
(`Session.addDepthMap_overwrites`): what is left is as if the map had begun
behind the refused change.
-/

namespace JitIndex

open SkipList (Layout Entry Laid)

/-- The stack depths of a block, as they are registered. -/
structure DepthMap where
  start : Addr
  stop : Addr
  /-- The offsets at which the depth changes, each with the depth from there on. -/
  changes : List (Addr × UInt32)

namespace DepthMap

def command (d : DepthMap) : Command := .writer (.addDepthMap d.start d.stop d.changes)

def Ascending (d : DepthMap) : Prop := d.changes.Pairwise fun c e => c.1 ≤ e.1

/-- Where a change is. Behind the last one comes the end of the block. -/
def place (d : DepthMap) (i : Nat) : Addr :=
  (d.changes[i]?.map fun c => d.start.addSat c.1).getD d.stop

/-- The region from a change up to the next one, unless there is nothing between. -/
def region? (d : DepthMap) (i : Nat) : Option DepthRegion :=
  d.changes[i]?.bind fun c =>
    if d.place i < d.place (i + 1) then
      some ⟨⟨d.place i, d.place (i + 1) - d.place i⟩, c.2⟩
    else none

/-- The regions of the changes from a number on. -/
def regionsFrom (d : DepthMap) (n : Nat) : List DepthRegion :=
  ((List.range d.changes.length).drop n).filterMap d.region?

variable {d : DepthMap} {i j n : Nat} {r q : DepthRegion}

/-! ## Regions by number -/

theorem region?_eq_some_iff : d.region? i = some r ↔ ∃ c, d.changes[i]? = some c ∧
    d.place i < d.place (i + 1) ∧ ⟨⟨d.place i, d.place (i + 1) - d.place i⟩, c.2⟩ = r := by
  simp only [region?, Option.bind_eq_some_iff, Option.ite_none_right_eq_some, Option.some.injEq]

theorem lt_length_of_region? (h : d.region? i = some r) : i < d.changes.length :=
  let ⟨_, hc, _⟩ := region?_eq_some_iff.mp h
  (List.getElem?_eq_some_iff.mp hc).1

/-- The regions that a block comes to, by the numbers of their changes. -/
theorem depthRuns_eq (start stop : Addr) (changes : List (Addr × UInt32)) :
    Registry.depthRuns start stop changes.reverse =
      ((⟨start, stop, changes⟩ : DepthMap).regionsFrom 0).reverse := by
  induction changes using List.reverseRecOn generalizing stop with
  | nil => rfl
  | append_singleton changes c ih =>
      obtain ⟨offset, depth⟩ := c
      -- the block without its last change ends there
      have hplace : ∀ i ≤ changes.length,
          (⟨start, stop, changes ++ [(offset, depth)]⟩ : DepthMap).place i =
            (⟨start, start.addSat offset, changes⟩ : DepthMap).place i := fun i hi => by
        rcases Nat.lt_or_eq_of_le hi with hlt | rfl
        · simp [place, List.getElem?_append_left hlt, List.getElem?_eq_getElem hlt]
        · simp [place]
      have hearlier : ∀ i ∈ List.range changes.length,
          (⟨start, stop, changes ++ [(offset, depth)]⟩ : DepthMap).region? i =
            (⟨start, start.addSat offset, changes⟩ : DepthMap).region? i := fun i hi => by
        have hlt := List.mem_range.mp hi
        unfold region?
        rw [hplace i (Nat.le_of_lt hlt), hplace (i + 1) hlt]
        simp only [List.getElem?_append_left hlt]
      have hlast : (⟨start, stop, changes ++ [(offset, depth)]⟩ : DepthMap).region? changes.length =
          if start.addSat offset < stop then
            some ⟨⟨start.addSat offset, stop - start.addSat offset⟩, depth⟩
          else none := by
        simp [region?, place]
      rw [List.reverse_append, List.reverse_singleton, List.singleton_append,
        Registry.depthRuns_cons, ih]
      unfold regionsFrom
      rw [List.drop_zero, List.drop_zero, List.length_append, List.length_singleton,
        List.range_succ, List.filterMap_append, List.filterMap_congr hearlier, List.reverse_append]
      by_cases hlt : start.addSat offset < stop
      · rw [if_pos hlt] at hlast ⊢
        rw [List.filterMap_cons_some hlast]
        rfl
      · rw [if_neg hlt] at hlast ⊢
        rw [List.filterMap_cons_none hlast]
        rfl

/-- A change at the same offset as the next one leaves no region. -/
example : (⟨4096, 4144, [(0, 1), (16, 2), (16, 3), (32, 4)]⟩ : DepthMap).regionsFrom 1 =
    [⟨⟨4112, 16⟩, 3⟩, ⟨⟨4128, 16⟩, 4⟩] := by decide

theorem place_mono (h : d.Ascending) (hij : i ≤ j) (hj : j < d.changes.length) :
    d.place i ≤ d.place j := by
  have hi : i < d.changes.length := Nat.lt_of_le_of_lt hij hj
  have hplace : ∀ {k} (hk : k < d.changes.length), d.place k = d.start.addSat d.changes[k].1 :=
    fun hk => by simp [place, hk]
  rw [hplace hi, hplace hj, UInt64.le_iff_toNat_le, Addr.toNat_addSat, Addr.toNat_addSat]
  rcases Nat.lt_or_eq_of_le hij with hlt | rfl
  · have hle := UInt64.le_iff_toNat_le.mp (List.pairwise_iff_getElem.mp h i j hi hj hlt)
    omega
  · exact Nat.le_refl _

/-- Regions start in the order of their changes. -/
theorem start_lt (h : d.Ascending) (hij : i < j) (hi : d.region? i = some r)
    (hj : d.region? j = some q) : r.start < q.start := by
  obtain ⟨-, -, hlt, rfl⟩ := region?_eq_some_iff.mp hi
  have hjlen := lt_length_of_region? hj
  obtain ⟨-, -, -, rfl⟩ := region?_eq_some_iff.mp hj
  exact UInt64.lt_of_lt_of_le hlt (place_mono h hij hjlen)

theorem mem_regionsFrom_iff : r ∈ d.regionsFrom n ↔ ∃ i, n ≤ i ∧ d.region? i = some r := by
  unfold regionsFrom
  rw [List.mem_filterMap, List.range_eq_range', List.drop_range']
  constructor
  · rintro ⟨i, hi, hr⟩
    have hi := List.mem_range'_1.mp hi
    exact ⟨i, by omega, hr⟩
  · rintro ⟨i, hi, hr⟩
    have hlt := lt_length_of_region? hr
    exact ⟨i, List.mem_range'_1.mpr (by omega), hr⟩

theorem regionsFrom_pairwise (h : d.Ascending) (n : Nat) :
    (d.regionsFrom n).Pairwise fun r q => r.start < q.start :=
  (List.pairwise_lt_range.sublist (List.drop_sublist ..)).filterMap d.region?
    fun _ _ hij _ hi _ hj => start_lt h hij hi hj

/-- What a filtered list has up to an element comes from the list up to an element. -/
theorem take_filterMap_of_getElem? {α β : Type} {f : α → Option β} {l : List α} {n : Nat} {b : β}
    (h : (l.filterMap f)[n]? = some b) : ∃ k a, l[k]? = some a ∧ f a = some b ∧
      (l.take k).filterMap f = (l.filterMap f).take n := by
  induction l generalizing n with
  | nil => cases h
  | cons a l ih =>
      cases hfa : f a with
      | none =>
          rw [List.filterMap_cons_none hfa] at h ⊢
          obtain ⟨k, c, hc, hfc, htake⟩ := ih h
          refine ⟨k + 1, c, hc, hfc, ?_⟩
          rw [List.take_succ_cons, List.filterMap_cons_none hfa, htake]
      | some b' =>
          rw [List.filterMap_cons_some hfa] at h ⊢
          cases n with
          | zero =>
              obtain rfl := Option.some.inj h
              exact ⟨0, a, rfl, hfa, rfl⟩
          | succ n =>
              obtain ⟨k, c, hc, hfc, htake⟩ := ih h
              refine ⟨k + 1, c, hc, hfc, ?_⟩
              rw [List.take_succ_cons, List.filterMap_cons_some hfa, htake, List.take_succ_cons]

/-- What comes before a region, when the last one comes first, is the regions of the changes behind
its own. -/
theorem take_regions_of_getElem? (h : (d.regionsFrom 0).reverse[n]? = some r) :
    ∃ i, d.region? i = some r ∧
      (d.regionsFrom 0).reverse.take n = (d.regionsFrom (i + 1)).reverse := by
  unfold regionsFrom at h ⊢
  rw [List.drop_zero, ← List.filterMap_reverse] at h ⊢
  obtain ⟨k, i, hi, hr, htake⟩ := take_filterMap_of_getElem? h
  obtain ⟨hk, hval⟩ := List.getElem?_eq_some_iff.mp hi
  rw [List.length_reverse, List.length_range] at hk
  rw [List.getElem_reverse, List.getElem_range, List.length_range] at hval
  refine ⟨i, hr, ?_⟩
  rw [← htake, List.take_reverse, List.length_range, List.filterMap_reverse,
    show d.changes.length - k = i + 1 by omega]

end DepthMap

/-! ## The code list -/

namespace Index

variable {ix ix' : Index} {v v' : View} {ts : List FrameTable} {n : Nat}

/-- Nothing that is looked up in the code list is changed by a collection. -/
theorem collect_code (h : Sound ix v) (ho : v.Orderly) :
    SkipList.Unedited ix.code ix.collect.code :=
  let ⟨_, _, _, hlead, hcol, _⟩ := collectKeeping_spec ix none h ho
  h.code.unedited hlead.sound.code hcol.codeLinked ix.collect_kept.code

/-- Nor by the registration of a depth region. -/
theorem addDepth_code (h : Sound ix v) (ho : v.Orderly) (r : DepthRegion) :
    SkipList.Unedited ix.code (ix.addDepth r).2.code := by
  obtain ⟨w, hcollected, -⟩ := collect_works h ho
  have hbefore := collect_code h ho
  have hsame : (ix.collect.registerDepth r).2.code = ix.collect.code :=
    (ix.collect.registerDepth_inserts r).2
  unfold addDepth
  rcases registerDepth_works hcollected.sound r with
    ⟨ix', v', hrun, -⟩ | ⟨replaced, ix', v', hrun, hwork, -⟩ <;> rw [hrun] at hsame ⊢ <;>
    rw [← hsame] at hbefore
  · exact hbefore
  · dsimp only
    split
    · have hnote := hwork.note (e := .depthReplaced r.start) (by rintro ⟨⟩)
      exact hbefore.trans (collect_code hnote.sound (hnote.orderly (hcollected.orderly ho)))
    · exact hbefore

theorem addDepths_code {rs : List DepthRegion} (h : Sound ix v) (ho : v.Orderly)
    (hrun : ix.addDepths rs = (.ok (), ix')) : SkipList.Unedited ix.code ix'.code := by
  induction rs generalizing ix v with
  | nil =>
      obtain rfl : ix = ix' := congrArg Prod.snd hrun
      exact .refl _
  | cons r rs ih =>
      have hfirst := addDepth_code h ho r
      rw [addDepths] at hrun
      rcases addDepth_works h ho r with ⟨ix₁, v₁, hrun₁, -⟩ | ⟨ix₁, v₁, hrun₁, hwork, -⟩ <;>
        rw [hrun₁] at hrun hfirst
      · cases hrun
      · exact hfirst.trans (ih hwork.sound (hwork.orderly ho) hrun)

end Index

/-! ## Registering a depth map -/

namespace Session

/-- Depth regions were registered, each in the place of the one that started with it if there was
one, and in one mutation each. -/
structure Overwritten (rs : List DepthRegion) (s s' : Session) : Prop where
  handles : s' = { s with index := s'.index }
  written : ∀ r ∈ rs, s'.index.registry.depth r.start = some (r.size, r.depth)
  kept : ∀ k, (∀ r ∈ rs, r.start ≠ k) → s'.index.registry.depth k = s.index.registry.depth k
  codeMap : s'.index.registry.code = s.index.registry.code
  code : SkipList.Unedited s.index.code s'.index.code
  generation : s'.index.gate.generation.toNat =
    (s.index.gate.generation.toNat + rs.length) % 2 ^ 30
  isOpen : s'.index.gate.isOpen = false

variable {settings : Settings} {allocator : Allocator} {s : Session} {sc : Scene}

/-- The mutations of an operation are counted by the generation. -/
theorem generation_of_works (h : Sound s sc) (hwriter : s.writer = true) {ix : Index} {v : View}
    {n : Nat} {ts : List FrameTable} (hwork : s.index.Works sc.view n ts ix v) :
    ix.gate.generation.toNat = (s.index.gate.generation.toNat + n) % 2 ^ 30 ∧
      ix.gate.isOpen = false := by
  obtain ⟨es, hlead, hdone⟩ := Works.write h hwriter hwork
  have hsound : ix.Sound v := hlead.sound.index
  have hgen := hlead.moves.generation_eq h.index.gate.generation
  rw [hdone.mutations] at hgen
  rw [hsound.gate.generation_eq, h.index.gate.generation_eq, hsound.gate.isOpen_eq, hsound.closed]
  exact ⟨hgen, rfl⟩

/-- Regions that start at different addresses are all there in the end. -/
theorem overwritten_of_works (h : Sound s sc) (hwriter : s.writer = true) {ix : Index} {v : View}
    {rs : List DepthRegion} (hstarts : rs.Pairwise fun r q => r.start < q.start)
    (hwork : s.index.Works sc.view rs.length [] ix v)
    (hreg : v.registry = rs.reverse.foldl Registry.addDepth sc.view.registry)
    (hcode : SkipList.Unedited s.index.code ix.code) :
    Overwritten rs s { s with index := ix } := by
  obtain ⟨hgen, hclosed⟩ := generation_of_works h hwriter hwork
  have hne : rs.reverse.Pairwise fun r q => r.start ≠ q.start :=
    List.pairwise_reverse.mpr (hstarts.imp fun hlt => (UInt64.ne_of_lt hlt).symm)
  have hbefore := h.index.registry_eq
  have hafter : ix.registry = rs.reverse.foldl Registry.addDepth s.index.registry := by
    rw [hwork.sound.registry_eq, hreg, hbefore]
  have hdepth := Registry.foldl_addDepth_depth hne s.index.registry
  rw [← hafter] at hdepth
  refine ⟨rfl, fun r hr => ?_, fun k hk => Option.ext fun value => ?_, ?_, hcode, hgen, hclosed⟩
  · exact (hdepth _ _).mpr (Or.inl ⟨r, List.mem_reverse.mpr hr, rfl, rfl⟩)
  · have hothers : ∀ r ∈ rs.reverse, r.start ≠ k := fun r hr => hk r (List.mem_reverse.mp hr)
    refine (hdepth k value).trans ⟨?_, fun hold => Or.inr ⟨hothers, hold⟩⟩
    rintro (⟨r, hr, heq, -⟩ | ⟨-, hold⟩)
    · exact absurd heq (hothers r hr)
    · exact hold
  · exact (congrArg Registry.code hafter).trans (Registry.foldl_addDepth_code ..)

/-- A depth map whose offsets ascend is written into the registry, region by region. If one region
is refused, those of the changes behind it are there, and it is the refusal of this one region that
ended the call; there is nothing of it or of the ones before it. -/
theorem addDepthMap_overwrites (hacts : Acts (start settings allocator) s)
    (hwriter : s.writer = true) {d : DepthMap} (hascending : d.Ascending) :
    let s' := (s.step d.command).2
    ((s.step d.command).1 = .accepted ∧ Overwritten (d.regionsFrom 0) s s') ∨
    ((s.step d.command).1 = .failed .allocation ∧ ∃ i r s₁, d.region? i = some r ∧
      Overwritten (d.regionsFrom (i + 1)) s s₁ ∧
      s₁.step (.writer (.addDepth r)) = (.failed .allocation, s') ∧
      Overwritten (d.regionsFrom (i + 1)) s s' ∧
      ∀ j q, j ≤ i → d.region? j = some q →
        s'.index.registry.depth q.start = s.index.registry.depth q.start) := by
  obtain ⟨sc, hreached⟩ := acts_reached settings allocator hacts
  have h := hreached.leads.sound
  have ho := h.attended hwriter
  have hcall : s.step d.command =
      (accepted (s.index.addDepths (d.regionsFrom 0).reverse).1,
        { s with index := (s.index.addDepths (d.regionsFrom 0).reverse).2 }) := by
    rw [← DepthMap.depthRuns_eq, ← Index.addDepthsDown_eq]
    exact step_writer_eq hwriter _
  intro s'
  have hs' : s' = { s with index := (s.index.addDepths (d.regionsFrom 0).reverse).2 } :=
    congrArg Prod.snd hcall
  rcases s.index.addDepths_cases (d.regionsFrom 0).reverse with
    ⟨ix', hrun⟩ | ⟨n, r, f, ix₁, ix', hr, hbefore, hrefused, hrun⟩
  · obtain ⟨v', hwork, hreg⟩ := Index.addDepths_works h.index ho hrun
    rw [List.length_reverse] at hwork
    rw [hs', hcall, hrun]
    exact Or.inl ⟨rfl, overwritten_of_works h hwriter (DepthMap.regionsFrom_pairwise hascending 0)
      hwork hreg (Index.addDepths_code h.index ho hrun)⟩
  · obtain ⟨i, hi, htake⟩ := DepthMap.take_regions_of_getElem? hr
    rw [htake] at hbefore
    obtain ⟨v₁, hwork₁, hreg₁⟩ := Index.addDepths_works h.index ho hbefore
    rw [List.length_reverse] at hwork₁
    have hcode₁ := Index.addDepths_code h.index ho hbefore
    have hstarts := DepthMap.regionsFrom_pairwise hascending (i + 1)
    have hlate := Index.addDepth_code hwork₁.sound (hwork₁.orderly ho) r
    rcases Index.addDepth_works hwork₁.sound (hwork₁.orderly ho) r with
      ⟨ix₂, v', hend, hwork, hreg⟩ | ⟨ix₂, v', hend, -⟩ <;> cases hend.symm.trans hrefused
    rw [hend] at hlate
    have hover := overwritten_of_works h hwriter hstarts (hwork₁.trans hwork) (hreg.trans hreg₁)
      (hcode₁.trans hlate)
    rw [hs', hcall, hrun]
    refine Or.inr ⟨rfl, i, r, { s with index := ix₁ }, hi,
      overwritten_of_works h hwriter hstarts hwork₁ hreg₁ hcode₁, ?_, hover, fun j q hj hq => ?_⟩
    · refine (step_writer_eq (s := { s with index := ix₁ }) hwriter _).trans ?_
      unfold stepWriter
      simp only [hend]
      rfl
    · refine hover.kept q.start fun p hp => ?_
      obtain ⟨k, hk, hp⟩ := DepthMap.mem_regionsFrom_iff.mp hp
      exact (UInt64.ne_of_lt (DepthMap.start_lt hascending (by omega) hq hp)).symm

/-- There is room for one more region: that of the last change is there, and the one of the change
before it is refused. There is nothing of it, nor of the first change. -/
theorem addDepthMap_short_of_room :
    let s := (start {} (.rationed none [] 32)).run [.writer (.fillDepth ⟨16, 8⟩ 16 31)]
    let d : DepthMap := ⟨4096, 4144, [(0, 1), (16, 2), (16, 3), (32, 4)]⟩
    let s' := (s.step d.command).2
    (s.step d.command).1 = .failed .allocation ∧
    d.region? 2 = some ⟨⟨4112, 16⟩, 3⟩ ∧ d.regionsFrom 3 = [⟨⟨4128, 16⟩, 4⟩] ∧
    (∃ s₁, Overwritten (d.regionsFrom 3) s s₁ ∧
      s₁.step (.writer (.addDepth ⟨⟨4112, 16⟩, 3⟩)) = (.failed .allocation, s')) ∧
    Overwritten (d.regionsFrom 3) s s' ∧
    s'.index.registry.depth 4128 = some (16, 4) ∧
    s'.index.registry.depth 4112 = none ∧ s'.index.registry.depth 4096 = none := by
  intro s d s'
  have hascending : d.Ascending := by simp [DepthMap.Ascending, d]
  have hthird : d.region? 2 = some ⟨⟨4112, 16⟩, 3⟩ := by decide +zetaReduce
  have hfourth : d.region? 3 = some ⟨⟨4128, 16⟩, 4⟩ := by decide +zetaReduce
  have hfound : s.writer = true ∧ s.index.registry.depth 4128 = none ∧
      s'.index.registry.depth 4128 = some (16, 4) ∧
      s'.index.registry.depth 4112 = none ∧ s'.index.registry.depth 4096 = none := by
    decide +kernel +zetaReduce
  obtain ⟨hwriter, hnew, hlast, hnone⟩ := hfound
  have hcall := addDepthMap_overwrites (run_acts _ _) hwriter hascending
  rw [show (s.step d.command).2 = s' from rfl] at hcall
  -- that is all that is taken from the run itself
  clear_value s'
  have hmissing : ∀ n ≤ 2, ¬ Overwritten (d.regionsFrom n) s s' := fun n hn hover => by
    have hwritten := hover.written _ (DepthMap.mem_regionsFrom_iff.mpr ⟨2, hn, hthird⟩)
    cases hnone.1.symm.trans hwritten
  rcases hcall with ⟨-, hover⟩ | ⟨hfailed, i, r, s₁, hi, hbefore, hstep, hover, hkept⟩
  · exact absurd hover (hmissing 0 (Nat.zero_le 2))
  · have hge : 2 ≤ i := by
      by_contra hlt
      exact hmissing (i + 1) (by omega) hover
    have hle : ¬ 3 ≤ i := by
      intro hle
      cases hlast.symm.trans ((hkept 3 _ hle hfourth).trans hnew)
    obtain rfl : i = 2 := by omega
    cases hthird.symm.trans hi
    exact ⟨hfailed, hthird, by decide +zetaReduce, ⟨s₁, hbefore, hstep⟩, hover, hlast, hnone⟩

end Session

end JitIndex
