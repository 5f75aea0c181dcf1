import JitIndex.Proofs.Index.Admitting
import JitIndex.Proofs.Index.Mutating
import JitIndex.Proofs.Registry
import JitIndex.Session.Step
import Mathlib.Data.Set.Card

/-!
# The operations of a writer

Every operation of a writer is made up of mutations and collections. A
collection is not seen from outside, so what an operation does to the registry
is what its mutations do, and `Works` counts those. An operation that registers
many regions registers those before the first for which there is no room.
-/

namespace JitIndex

open SkipList (Layout Entry Laid ids)

/-! ## What a mutation does to the registry -/

namespace View

variable {v v' : View}

theorem registry_congr (hcode : v'.code.linked = v.code.linked)
    (hdepth : v'.depth.linked = v.depth.linked) : v'.registry = v.registry := by
  simp only [registry, hcode, hdepth]

theorem registry_addCode {e : Entry CodeRecord} {region : CodeRegion} {owned : OwnedTable}
    (hkey : e.key = region.start) (hpayload : e.payload = ⟨region.size, owned⟩)
    (htable : owned.table = region.table)
    (hcode : v'.code.linked = v.code.linked.filter (fun f => f.key < region.start) ++
      e :: v.code.linked.filter fun f => region.start < f.key)
    (hdepth : v'.depth.linked = v.depth.linked) :
    v'.registry = v.registry.addCode region := by
  unfold registry Registry.addCode
  congr 1
  · funext a
    rw [hcode, ← hkey, SkipList.find?_insert]
    unfold Function.update
    by_cases ha : a = e.key
    · subst ha
      simp [hpayload, htable]
    · simp [ha]
  · simp only [hdepth]

theorem registry_addDepth {e : Entry Payload} {region : DepthRegion}
    (hkey : e.key = region.start) (hpayload : e.payload = region.encode)
    (hcode : v'.code.linked = v.code.linked)
    (hdepth : v'.depth.linked = v.depth.linked.filter (fun f => f.key < region.start) ++
      e :: v.depth.linked.filter fun f => region.start < f.key) :
    v'.registry = v.registry.addDepth region := by
  have hregion : DepthRegion.ofEntry e = region := by
    rw [DepthRegion.ofEntry, hkey, hpayload, DepthRegion.decode_encode]
  unfold registry Registry.addDepth
  congr 1
  · simp only [hcode]
  · funext a
    rw [hdepth, ← hkey, SkipList.find?_insert]
    unfold Function.update
    by_cases ha : a = e.key
    · subst ha
      simp [hregion]
    · simp [ha]

theorem registry_removeCode {start : Addr}
    (hcode : v'.code.linked = v.code.linked.filter fun e => e.key != start)
    (hdepth : v'.depth.linked = v.depth.linked) :
    v'.registry = v.registry.removeCode start := by
  unfold registry Registry.removeCode
  congr 1
  · funext a
    rw [hcode, SkipList.find?_filter_key fun k => k != start]
    unfold Function.update
    by_cases ha : a = start <;> simp [ha]
  · simp only [hdepth]

theorem registry_clearDepths {start size : Nat} {inside : Addr → Bool}
    (hinside : ∀ k, inside k = true ↔ start ≤ k.toNat ∧ k.toNat < start + size)
    (hcode : v'.code.linked = v.code.linked)
    (hdepth : v'.depth.linked = v.depth.linked.filter fun e => !inside e.key) :
    v'.registry = v.registry.clearDepths start size := by
  unfold registry Registry.clearDepths
  congr 1
  · simp only [hcode]
  · funext a
    rw [hdepth, SkipList.find?_filter_key fun k => !inside k]
    by_cases ha : inside a = true
    · rw [if_pos ((hinside a).mp ha)]
      simp [ha]
    · rw [if_neg fun h => ha ((hinside a).mpr h)]
      simp [ha]

theorem registry_empty (hcode : v.code.linked = []) (hdepth : v.depth.linked = []) :
    v.registry = .empty := by
  simp only [registry, hcode, hdepth, Registry.empty]
  rfl

theorem linked_of_registry_empty (h : v.registry = .empty) :
    v.code.linked = [] ∧ v.depth.linked = [] := by
  constructor
  · refine List.eq_nil_iff_forall_not_mem.mpr fun e he => ?_
    have hnone := congrFun (congrArg Registry.code h) e.key
    simp only [registry, Registry.empty, Option.map_eq_none_iff, List.find?_eq_none] at hnone
    exact hnone e he (beq_self_eq_true _)
  · refine List.eq_nil_iff_forall_not_mem.mpr fun e he => ?_
    have hnone := congrFun (congrArg Registry.depth h) e.key
    simp only [registry, Registry.empty, Option.map_eq_none_iff, List.find?_eq_none] at hnone
    exact hnone e he (beq_self_eq_true _)

end View

namespace Index

variable {ix ix' ix'' : Index} {v v' v'' : View}

/-- An index was led to another one by moves that hand no table back, with so many mutations and
these tables taken over. -/
def Works (ix : Index) (v : View) (mutations : Nat) (tables : List FrameTable) (ix' : Index)
    (v' : View) : Prop :=
  ∃ es, Leads ix v es ix' v' ∧ Work es mutations tables []

variable {m n : Nat} {ts us : List FrameTable}

theorem Works.refl (h : Sound ix v) : Works ix v 0 [] ix v := ⟨[], .refl h, .nil⟩

theorem Works.trans (h : Works ix v m ts ix' v') (h' : Works ix' v' n us ix'' v'') :
    Works ix v (m + n) (ts ++ us) ix'' v'' :=
  let ⟨es, hlead, hwork⟩ := h
  let ⟨fs, hlead', hwork'⟩ := h'
  ⟨es ++ fs, hlead.trans hlead', hwork.append hwork'⟩

theorem Works.note (h : Works ix v n ts ix' v') {e : Event} (he : e.channel ≠ .books) :
    Works ix v n ts (ix'.note e) v' :=
  let ⟨es, hlead, hwork⟩ := h
  ⟨es, hlead.note he, hwork⟩

theorem Works.sound (h : Works ix v n ts ix' v') : Sound ix' v' :=
  let ⟨_, hlead, _⟩ := h
  hlead.sound

theorem Works.orderly (h : Works ix v n ts ix' v') (ho : v.Orderly) : v'.Orderly :=
  let ⟨_, hlead, _⟩ := h
  hlead.moves.orderly ho

/-! ## Collecting -/

theorem disposal_work (keep : Option SlotId) (released : List (Entry CodeRecord)) :
    Work (disposal keep released) 0 []
      ((released.filter fun e => some e.id == keep).map fun e => e.payload.owned) := by
  unfold disposal
  refine ⟨?_, ?_, ?_⟩
  · rw [List.count_eq_zero]
    simp
  · rw [List.filterMap_append, List.filterMap_map, List.filterMap_map]
    simp [Function.comp_def, Event.taken?]
  · rw [List.filterMap_append, List.filterMap_map, List.filterMap_map]
    simp [Function.comp_def, Event.returned?]

theorem collect_works (h : Sound ix v) (ho : v.Orderly) :
    ∃ v', Works ix v 0 [] ix.collect v' ∧ v'.code.linked = v.code.linked ∧
      v'.depth.linked = v.depth.linked := by
  obtain ⟨es, released, v', hlead, hcol, -⟩ := collectKeeping_spec ix none h ho
  have hwork : Work (disposal none released) 0 [] [] := by
    simpa using disposal_work none released
  exact ⟨v', ⟨es, hlead, hwork.of_perm (Nat.zero_le _) hcol.events⟩, hcol.codeLinked,
    hcol.depthLinked⟩

/-- Work may end with a collection. -/
theorem Works.collect (h : Works ix v n ts ix' v') (ho : v.Orderly) :
    ∃ v'', Works ix v n ts ix'.collect v'' ∧ v''.code.linked = v'.code.linked ∧
      v''.depth.linked = v'.depth.linked := by
  obtain ⟨v'', hcollect, hcode, hdepth⟩ := collect_works h.sound (h.orderly ho)
  have hwork := h.trans hcollect
  rw [List.append_nil] at hwork
  exact ⟨v'', hwork, hcode, hdepth⟩

/-! ## Registering -/

theorem registerCode_works (h : Sound ix v) (region : CodeRegion) :
    (∃ ix' v', ix.registerCode region = (.error .allocation, ix') ∧
      Works ix v 0 [region.table] ix' v' ∧ v'.registry = v.registry) ∨
    ∃ replaced ix' v', ix.registerCode region = (.ok replaced, ix') ∧
      Works ix v 1 [region.table] ix' v' ∧ v'.registry = v.registry.addCode region := by
  rcases registerCode_spec h region with
    ⟨ix', hrun, hlead⟩ | ⟨e, ix', c, hkey, hpayload, hrun, hlead, hlinked, -⟩
  · exact Or.inl ⟨ix', _, hrun, ⟨_, hlead, rfl, rfl, rfl⟩, rfl⟩
  · refine Or.inr ⟨_, ix', _, hrun, ⟨_, hlead, ?_, ?_, ?_⟩,
      View.registry_addCode hkey hpayload rfl hlinked rfl⟩
    · simp [arrival]
    · simp [arrival, Event.taken?, hpayload]
    · simp [arrival, Event.returned?]

/-- A code region is registered, or refused without a trace in the registry. -/
theorem addCode_works (h : Sound ix v) (ho : v.Orderly) (region : CodeRegion) :
    (∃ ix' v', ix.addCode region = (.error .allocation, ix') ∧
      Works ix v 0 [region.table] ix' v' ∧ v'.registry = v.registry) ∨
    ∃ ix' v', ix.addCode region = (.ok (), ix') ∧ Works ix v 1 [region.table] ix' v' ∧
      v'.registry = v.registry.addCode region := by
  obtain ⟨v₁, hwork₁, hcode₁, hdepth₁⟩ := collect_works h ho
  have hreg₁ := View.registry_congr hcode₁ hdepth₁
  unfold addCode
  rcases registerCode_works hwork₁.sound region with
    ⟨ix', v', hrun, hwork, hreg⟩ | ⟨replaced, ix', v', hrun, hwork, hreg⟩
  · refine Or.inl ⟨ix', v', by rw [hrun], ?_, hreg.trans hreg₁⟩
    simpa using hwork₁.trans hwork
  · rw [hreg₁] at hreg
    have hwork₂ : Works ix v 1 [region.table] ix' v' := by simpa using hwork₁.trans hwork
    rw [hrun]
    dsimp only
    split
    · have hnote := hwork₂.note (e := .codeReplaced region.start) (by rintro ⟨⟩)
      obtain ⟨v'', hwork₃, hcode, hdepth⟩ := hnote.collect ho
      exact Or.inr ⟨_, v'', rfl, hwork₃.note (by rintro ⟨⟩),
        (View.registry_congr hcode hdepth).trans hreg⟩
    · exact Or.inr ⟨_, v', rfl, hwork₂.note (by rintro ⟨⟩), hreg⟩

theorem registerDepth_works (h : Sound ix v) (region : DepthRegion) :
    (∃ ix' v', ix.registerDepth region = (.error .allocation, ix') ∧ Works ix v 0 [] ix' v' ∧
      v'.registry = v.registry) ∨
    ∃ replaced ix' v', ix.registerDepth region = (.ok replaced, ix') ∧ Works ix v 1 [] ix' v' ∧
      v'.registry = v.registry.addDepth region := by
  rcases registerDepth_spec h region with
    ⟨ix', hrun, hlead⟩ | ⟨e, ix', d, hkey, hpayload, hrun, hlead, hlinked, -⟩
  · exact Or.inl ⟨ix', v, hrun, ⟨_, hlead, .nil⟩, rfl⟩
  · refine Or.inr ⟨_, ix', _, hrun, ⟨_, hlead, ?_, ?_, ?_⟩,
      View.registry_addDepth hkey hpayload rfl hlinked⟩
    · simp [arrival]
    · simp [arrival, Event.taken?]
    · simp [arrival, Event.returned?]

/-- A depth region is registered, or refused without a trace in the registry. -/
theorem addDepth_works (h : Sound ix v) (ho : v.Orderly) (region : DepthRegion) :
    (∃ ix' v', ix.addDepth region = (.error .allocation, ix') ∧ Works ix v 0 [] ix' v' ∧
      v'.registry = v.registry) ∨
    ∃ ix' v', ix.addDepth region = (.ok (), ix') ∧ Works ix v 1 [] ix' v' ∧
      v'.registry = v.registry.addDepth region := by
  obtain ⟨v₁, hwork₁, hcode₁, hdepth₁⟩ := collect_works h ho
  have hreg₁ := View.registry_congr hcode₁ hdepth₁
  unfold addDepth
  rcases registerDepth_works hwork₁.sound region with
    ⟨ix', v', hrun, hwork, hreg⟩ | ⟨replaced, ix', v', hrun, hwork, hreg⟩
  · refine Or.inl ⟨ix', v', by rw [hrun], ?_, hreg.trans hreg₁⟩
    simpa using hwork₁.trans hwork
  · rw [hreg₁] at hreg
    have hwork₂ : Works ix v 1 [] ix' v' := by simpa using hwork₁.trans hwork
    rw [hrun]
    dsimp only
    split
    · have hnote := hwork₂.note (e := .depthReplaced region.start) (by rintro ⟨⟩)
      obtain ⟨v'', hwork₃, hcode, hdepth⟩ := hnote.collect ho
      exact Or.inr ⟨_, v'', rfl, hwork₃, (View.registry_congr hcode hdepth).trans hreg⟩
    · exact Or.inr ⟨_, v', rfl, hwork₂, hreg⟩

/-! ## Removing -/

theorem unlinkCode_works (h : Sound ix v) (start : Addr) :
    ∃ n v', Works ix v n [] (ix.unlinkCode start).2 v' ∧
      v'.registry = v.registry.removeCode start := by
  rcases unlinkCode_spec h start with ⟨hnone, hrun⟩ | ⟨e, ix', hsome, hrun, hlead⟩
  · refine ⟨0, v, by rw [hrun]; exact .refl h, View.registry_removeCode ?_ rfl⟩
    rw [eq_comm, List.filter_eq_self]
    intro e he
    simpa using List.find?_eq_none.mp hnone e he
  · rw [hrun]
    exact ⟨1, v.mutated 0 (v.code.unlink start) v.depth, ⟨_, hlead, rfl, rfl, rfl⟩,
      View.registry_removeCode rfl rfl⟩

theorem toNat_le_last (span : Span) (hsize : span.size ≠ 0) (k : Addr) :
    (span.start ≤ k && k ≤ span.start.addSat (span.size - 1)) = true ↔
      span.start.toNat ≤ k.toNat ∧ k.toNat < span.start.toNat + span.size.toNat := by
  have hpos : 1 ≤ span.size.toNat := by
    have : span.size.toNat ≠ 0 := fun h => hsize (UInt64.toNat_inj.mp h)
    omega
  have hlast : (span.size - 1).toNat = span.size.toNat - 1 :=
    UInt64.toNat_sub_of_le _ _ (UInt64.le_iff_toNat_le.mpr hpos)
  have := k.toNat_lt
  simp only [Bool.and_eq_true, decide_eq_true_eq, UInt64.le_iff_toNat_le, Addr.toNat_addSat, hlast,
    UInt64.size]
  omega

/-- The number of swept depth regions is the number of those that were registered there. -/
theorem length_eq_ncard (h : Sound ix v) {es : List (Entry Payload)} {inside : Addr → Bool}
    {start size : Nat} (hinside : ∀ k, inside k = true ↔ start ≤ k.toNat ∧ k.toNat < start + size)
    (hes : es.Perm (v.depth.linked.filter fun e => inside e.key)) :
    es.length = (v.registry.depthsIn start size).ncard := by
  have hkeys : (es.map (·.key)).Nodup := by
    have hsorted := h.depth.sorted.sublist (List.filter_sublist (p := fun e => inside e.key))
    rw [(hes.map _).nodup_iff, List.Nodup, List.pairwise_map]
    exact hsorted.imp UInt64.ne_of_lt
  have hset : v.registry.depthsIn start size = ↑(es.map (·.key)).toFinset := by
    ext k
    simp only [Registry.depthsIn, View.registry, Set.mem_ofPred_eq, List.coe_toFinset, List.mem_map,
      isSome_map_find?_iff h.depth.sorted, hes.mem_iff, List.mem_filter]
    constructor
    · rintro ⟨⟨e, he, rfl⟩, hin⟩
      exact ⟨e, ⟨he, (hinside _).mpr hin⟩, rfl⟩
    · rintro ⟨e, ⟨he, hin⟩, rfl⟩
      exact ⟨⟨e, he, rfl⟩, (hinside _).mp hin⟩
  rw [hset, Set.ncard_coe_finset, List.toFinset_card_of_nodup hkeys, List.length_map]

/-- The depth regions that start in a span are removed, whether the span ends at an address that
exists or not. -/
theorem clearDepths_works (h : Sound ix v) (ho : v.Orderly) (span : Span) :
    ∃ ix' v' n, ix.clearDepths span =
        ((v.registry.depthsIn span.start.toNat span.size.toNat).ncard, ix') ∧
      Works ix v n [] ix' v' ∧ (span.size = 0 → n = 0) ∧
      v'.registry = v.registry.clearDepths span.start.toNat span.size.toNat := by
  unfold clearDepths
  by_cases hsize : span.size = 0
  · have hnothing : ∀ k : Addr, ¬ (span.start.toNat ≤ k.toNat ∧ k.toNat < span.start.toNat) := by
      omega
    refine ⟨ix, v, 0, ?_, .refl h, fun _ => rfl, ?_⟩
    · simp [hsize, Registry.depthsIn, hnothing]
    · simp [hsize, Registry.clearDepths, hnothing]
  · rw [if_neg hsize]
    have hinside := toNat_le_last span hsize
    obtain ⟨es, ix₁, d, hrun, hperm, hlead, hlinked, -⟩ :=
      sweepDepths_spec h span.start (span.start.addSat (span.size - 1))
    have hwork : Works ix v 1 [] ix₁ (v.mutated 0 v.code d) := ⟨_, hlead, rfl, rfl, rfl⟩
    have hreg : (v.mutated 0 v.code d).registry =
        v.registry.clearDepths span.start.toNat span.size.toNat :=
      View.registry_clearDepths hinside rfl hlinked
    simp only [hrun, length_eq_ncard h hinside hperm]
    have hlog : ∀ n a b, (Event.depthsCleared n a b).channel ≠ .books := by rintro _ _ _ ⟨⟩
    by_cases hempty : es.isEmpty = true
    · rw [if_pos hempty]
      exact ⟨_, _, 1, rfl, hwork.note (hlog _ _ _), fun h0 => absurd h0 hsize, hreg⟩
    · rw [if_neg hempty]
      obtain ⟨v', hwork', hcode, hdepth⟩ := hwork.collect ho
      exact ⟨_, v', 1, rfl, hwork'.note (hlog _ _ _), fun h0 => absurd h0 hsize,
        (View.registry_congr hcode hdepth).trans hreg⟩

/-- A block is forgotten: the code region that starts with it, and the depth regions in it. -/
theorem freeBlock_works (h : Sound ix v) (ho : v.Orderly) (start stop : Addr) :
    ∃ n v', Works ix v n [] (ix.freeBlock start stop) v' ∧
      v'.registry = (v.registry.removeCode start).clearDepths start.toNat
        (stop.toNat - start.toNat) := by
  obtain ⟨n₁, v₁, hwork₁, hreg₁⟩ := unlinkCode_works h start
  obtain ⟨ix₂, v₂, n₂, hrun, hwork₂, -, hreg₂⟩ :=
    clearDepths_works hwork₁.sound (hwork₁.orderly ho) ⟨start, stop.subSat start⟩
  obtain ⟨v₃, hwork₃, hcode, hdepth⟩ := (hwork₁.trans hwork₂).collect ho
  refine ⟨n₁ + n₂, v₃, ?_, (View.registry_congr hcode hdepth).trans ?_⟩
  · unfold freeBlock
    simp only [hrun]
    exact hwork₃
  · rw [hreg₂, hreg₁, Addr.toNat_subSat]

/-- Everything is removed, in no mutation at all if there is nothing. -/
theorem clear_works (h : Sound ix v) (ho : v.Orderly) :
    ∃ n v', Works ix v n [] ix.clear v' ∧ v'.code.linked = [] ∧ v'.depth.linked = [] ∧
      (v.registry = .empty → n = 0) := by
  unfold clear
  rw [h.code.first?_eq, h.depth.first?_eq]
  by_cases hempty : v.code.linked = [] ∧ v.depth.linked = []
  · rw [hempty.1, hempty.2]
    exact ⟨0, v, .refl h, hempty.1, hempty.2, fun _ => rfl⟩
  · have hne : ¬ ((v.code.linked.head?.isNone && v.depth.linked.head?.isNone) = true) := by
      simpa [Option.isNone_iff_eq_none] using hempty
    rw [if_neg hne]
    obtain ⟨es, ix₁, c, d, hrun, -, hlead, hc, hd⟩ := unlinkEverything_spec h
    have hwork : Works ix v 1 [] ix₁ (v.mutated 0 c d) := ⟨_, hlead, rfl, rfl, rfl⟩
    obtain ⟨v', hwork', hcode, hdepth⟩ := hwork.collect ho
    simp only [hrun]
    have hlog : (Event.indexCleared es.length).channel ≠ .books := by rintro ⟨⟩
    exact ⟨1, v', hwork'.note hlog, hcode.trans hc, hdepth.trans hd,
      fun h0 => absurd (View.linked_of_registry_empty h0) hempty⟩

/-! ## Registering many -/

/-- Registers depth regions one after another, until one is refused. -/
def addDepths (ix : Index) : List DepthRegion → Except Failure Unit × Index
  | [] => (.ok (), ix)
  | r :: rs =>
    match ix.addDepth r with
    | (.error f, ix) => (.error f, ix)
    | (.ok (), ix) => ix.addDepths rs

/-- The depths of a block are registered as the regions that they come to. -/
theorem addDepthsDown_eq (start : Addr) : ∀ (changes : List (Addr × UInt32)) (stop : Addr)
    (ix : Index), ix.addDepthsDown start stop changes =
      ix.addDepths (Registry.depthRuns start stop changes)
  | [], _, _ => rfl
  | (offset, depth) :: earlier, stop, ix => by
      unfold addDepthsDown Registry.depthRuns
      dsimp only
      split
      · rw [addDepths]
        generalize ix.addDepth _ = result
        rcases result with ⟨f | _, ix'⟩
        · rfl
        · exact addDepthsDown_eq start earlier _ ix'
      · exact addDepthsDown_eq start earlier _ ix

/-- All regions are registered, or those in front of one that is refused. -/
theorem addDepths_cases (ix : Index) (rs : List DepthRegion) :
    (∃ ix', ix.addDepths rs = (.ok (), ix')) ∨
    ∃ n r f ix₁ ix', rs[n]? = some r ∧ ix.addDepths (rs.take n) = (.ok (), ix₁) ∧
      ix₁.addDepth r = (.error f, ix') ∧ ix.addDepths rs = (.error f, ix') := by
  induction rs generalizing ix with
  | nil => exact Or.inl ⟨ix, rfl⟩
  | cons r rs ih =>
      obtain ⟨⟨f | _, ix₀⟩, hrun⟩ : ∃ result, ix.addDepth r = result := ⟨_, rfl⟩
      · refine Or.inr ⟨0, r, f, ix, ix₀, rfl, rfl, hrun, ?_⟩
        rw [addDepths, hrun]
      · have hrest : ∀ qs, ix.addDepths (r :: qs) = ix₀.addDepths qs := fun qs => by
          rw [addDepths, hrun]
        rw [hrest]
        rcases ih ix₀ with hall | ⟨n, q, f, ix₁, ix', hq, hbefore, hrefused, hend⟩
        · exact Or.inl hall
        · refine Or.inr ⟨n + 1, q, f, ix₁, ix', hq, ?_, hrefused, hend⟩
          rw [List.take_succ_cons, hrest]
          exact hbefore

/-- Regions that are registered one after another are all in the registry. -/
theorem addDepths_works {rs : List DepthRegion} (h : Sound ix v) (ho : v.Orderly)
    (hrun : ix.addDepths rs = (.ok (), ix')) :
    ∃ v', Works ix v rs.length [] ix' v' ∧ v'.registry = rs.foldl Registry.addDepth v.registry := by
  induction rs generalizing ix v with
  | nil =>
      obtain rfl : ix = ix' := congrArg Prod.snd hrun
      exact ⟨v, .refl h, rfl⟩
  | cons r rs ih =>
      rw [addDepths] at hrun
      rcases addDepth_works h ho r with
        ⟨ix₁, v₁, hfirst, hwork, hreg⟩ | ⟨ix₁, v₁, hfirst, hwork, hreg⟩ <;> rw [hfirst] at hrun
      · cases hrun
      · obtain ⟨v', hwork', hreg'⟩ := ih hwork.sound (hwork.orderly ho) hrun
        refine ⟨v', ?_, ?_⟩
        · rw [List.length_cons, Nat.add_comm]
          exact hwork.trans hwork'
        · rw [List.foldl_cons, ← hreg, hreg']

/-- There is room for all regions that are registered one after another. -/
theorem addDepths_accepts {rs : List DepthRegion} (h : Sound ix v) (ho : v.Orderly)
    (hrun : ix.addDepths rs = (.ok (), ix')) (qs : List Registration) (n : Nat) :
    ix.Accepts (rs.map .depth ++ qs) (rs.length + n) ↔ ix'.Accepts qs n := by
  induction rs generalizing ix v with
  | nil =>
      obtain rfl : ix = ix' := congrArg Prod.snd hrun
      rw [List.map_nil, List.nil_append, List.length_nil, Nat.zero_add]
  | cons r rs ih =>
      have hroom := add_ok_iff h ho (.depth r)
      rw [addDepths] at hrun
      rw [List.map_cons, List.cons_append, List.length_cons, Nat.add_right_comm, Accepts]
      rw [add] at hroom ⊢
      rcases addDepth_works h ho r with
        ⟨ix₁, v₁, hfirst, hwork, -⟩ | ⟨ix₁, v₁, hfirst, hwork, -⟩ <;> rw [hfirst] at hrun hroom ⊢
      · cases hrun
      · rw [and_iff_right (hroom.mp rfl)]
        exact ih hwork.sound (hwork.orderly ho) hrun

/-- The depths of a block are registered as one region after another, until there is no room for
one. -/
theorem addDepthsDown_works (start : Addr) (changes : List (Addr × UInt32)) (stop : Addr)
    (h : Sound ix v) (ho : v.Orderly) :
    ∃ answer ix' v' n, ix.addDepthsDown start stop changes = (answer, ix') ∧
      Works ix v n [] ix' v' ∧ ix.Accepts ((Registry.depthRuns start stop changes).map .depth) n ∧
      v'.registry =
        ((Registry.depthRuns start stop changes).take n).foldl Registry.addDepth v.registry ∧
      (answer = .ok () ∧ n = (Registry.depthRuns start stop changes).length ∨
        answer = .error .allocation ∧ n < (Registry.depthRuns start stop changes).length) := by
  rw [addDepthsDown_eq]
  generalize Registry.depthRuns start stop changes = rs
  rcases ix.addDepths_cases rs with ⟨ix', hrun⟩ | ⟨n, r, f, ix₁, ix', hr, hbefore, hrefused, hrun⟩
  · obtain ⟨v', hwork, hreg⟩ := addDepths_works h ho hrun
    have hall := (addDepths_accepts h ho hrun [] 0).mpr rfl
    rw [List.append_nil] at hall
    refine ⟨_, ix', v', _, hrun, hwork, hall, ?_, Or.inl ⟨rfl, rfl⟩⟩
    rw [List.take_length, hreg]
  · obtain ⟨hlt, hget⟩ := List.getElem?_eq_some_iff.mp hr
    obtain ⟨v₁, hwork, hreg⟩ := addDepths_works h ho hbefore
    have hnone : ¬ (Registration.depth r).HasRoom ix₁.collect := by
      rw [← add_ok_iff hwork.sound (hwork.orderly ho), add, hrefused]
      rintro ⟨⟩
    have hsome :=
      (addDepths_accepts h ho hbefore (.depth r :: (rs.drop (n + 1)).map .depth) 0).mpr hnone
    rw [← List.map_cons, ← List.map_append, ← hget, ← List.drop_eq_getElem_cons hlt,
      List.take_append_drop, Nat.add_zero] at hsome
    rw [List.length_take_of_le (Nat.le_of_lt hlt)] at hwork hsome
    rcases addDepth_works hwork.sound (hwork.orderly ho) r with
      ⟨ix₂, v', hend, hwork', hreg'⟩ | ⟨ix₂, v', hend, -⟩ <;> cases hend.symm.trans hrefused
    exact ⟨_, ix', v', n, hrun, hwork.trans hwork', hsome, hreg'.trans hreg, Or.inr ⟨rfl, hlt⟩⟩

/-- A row of regions is registered, one after another, until there is no room for one. The tables of
the refused one are taken over as well. -/
theorem fill_works (offer : Span × Nat → Registration)
    (register : Registry → Span × Nat → Registry) (offers : Span × Nat → List FrameTable)
    (stride : Addr)
    (hadd : ∀ {ix v} place, Sound ix v → v.Orderly →
      (∃ ix' v', ix.add (offer place) = (.error .allocation, ix') ∧
        Works ix v 0 (offers place) ix' v' ∧ v'.registry = v.registry) ∨
      ∃ ix' v', ix.add (offer place) = (.ok (), ix') ∧ Works ix v 1 (offers place) ix' v' ∧
        v'.registry = register v.registry place) :
    ∀ (count n : Nat) (span : Span) {ix : Index} {v : View}, Sound ix v → v.Orderly →
      ∃ k ix' v', Session.fill (fun ix span n => ix.add (offer (span, n))) stride count n span ix =
          (n + k, ix') ∧ k ≤ count ∧ ix.Accepts ((Registry.row stride count n span).map offer) k ∧
        Works ix v k (((Registry.row stride count n span).take (k + 1)).flatMap offers) ix' v' ∧
        v'.registry = ((Registry.row stride count n span).take k).foldl register v.registry
  | 0, n, span, ix, v, h, _ => ⟨0, ix, v, rfl, Nat.le_refl _, rfl, .refl h, rfl⟩
  | count + 1, n, span, ix, v, h, ho => by
      have hroom := add_ok_iff h ho (offer (span, n))
      unfold Session.fill Registry.row
      rcases hadd (span, n) h ho with
        ⟨ix₁, v₁, hrun, hwork, hreg⟩ | ⟨ix₁, v₁, hrun, hwork, hreg⟩ <;> rw [hrun] at hroom
      · simp only [hrun]
        refine ⟨0, ix₁, v₁, rfl, Nat.zero_le _, fun hthere => ?_, ?_, hreg⟩
        · cases hroom.mpr hthere
        · simpa using hwork
      · simp only [hrun]
        obtain ⟨k, ix', v', hrun', hle, haccepts, hwork', hreg'⟩ :=
          fill_works offer register offers stride hadd count (n + 1) _ hwork.sound
            (hwork.orderly ho)
        refine ⟨1 + k, ix', v', ?_, ?_, ?_, ?_, ?_⟩
        · rw [← Nat.add_assoc]
          exact hrun'
        · rw [Nat.add_comm]
          exact Nat.succ_le_succ hle
        · rw [List.map_cons, Nat.add_comm 1 k, Accepts, hrun]
          exact ⟨hroom.mp rfl, haccepts⟩
        · rw [show 1 + k + 1 = k + 1 + 1 by omega, List.take_succ_cons, List.flatMap_cons]
          exact hwork.trans hwork'
        · rw [Nat.add_comm 1 k, List.take_succ_cons, List.foldl_cons, ← hreg, hreg']

end Index

end JitIndex
