import JitIndex.Proofs.Index.View

/-!
# Releasing what no reader can reach

`Index.collectKeeping` moves what is parked along for as long as it can. All
in all it lets go of some parked nodes and keeps the others (`Collected`), and
it ends in one of two ways: something is sealed that has readers, or nothing
is parked at all. What is linked does not change.
-/

namespace JitIndex

open SkipList (Layout Entry Laid ids)

namespace Host

theorem check_of_true (h : Host) (f : Fault) : h.check true f = h := rfl

end Host

namespace Index

variable {ix : Index} {v : View}

/-! ## The two moves -/

theorem books_disposeTables (host : Host) (kept dropped : List (Entry CodeRecord)) :
    (disposeTables host kept dropped).books = host.books ++
      (dropped.map (fun e => .tableDropped (some e.id) e.payload.owned) ++
        kept.map fun e => .tableReturned e.id e.payload.owned) := by
  unfold disposeTables
  rw [Host.books_notes, Host.books_notes, List.append_assoc]
  congr 2
  · rw [List.filter_eq_self]
    intro ev hev
    obtain ⟨e, -, rfl⟩ := List.mem_map.mp hev
    rfl
  · rw [List.filter_eq_self]
    intro ev hev
    obtain ⟨e, -, rfl⟩ := List.mem_map.mp hev
    rfl

theorem release_leads (h : Sound ix v) {e : Epoch} (he : ix.sealedEpoch = some e)
    (hdrained : ix.gate.hasDrained e = true) (keep : Option SlotId) :
    (ix.release e keep).1 = ((v.code.sealed.filter fun e => some e.id == keep).getLast?.map fun e =>
      e.payload.owned) ∧
    Leads ix v (disposal keep v.code.sealed) (ix.release e keep).2
      { v with code := v.code.reclaim, depth := v.depth.reclaim, sealedEpoch := none } := by
  obtain ⟨code, hcode, hlaid, hcore, hused⟩ := h.code.reclaim_eq
  obtain ⟨depth, hdepth, hlaid', hcore', hused'⟩ := h.depth.reclaim_eq
  have hreaders : v.gate.readers e = 0 := by
    rw [h.gate.hasDrained_eq] at hdrained
    exact of_decide_eq_true hdrained
  have hmove : View.Moves v (disposal keep v.code.sealed) _ :=
    .single (.release keep (h.sealedEpoch ▸ he) hreaders)
  simp only [release, hcode, hdepth, List.partition_eq_filter_filter, true_and]
  refine ⟨hmove, ⟨hlaid, hlaid', h.codeReady, h.depthReady, h.gate, h.closed, rfl, h.taken⟩,
    ?_, .of_core hused hcore, .of_core hused' hcore'⟩
  have hlog : (Event.epochDrained e
      (v.code.sealed.filter fun e => !(some e.id == keep)).length).channel ≠ .books := by rintro ⟨⟩
  exact (Host.books_note_of_not_books _ hlog).trans (books_disposeTables ..)

theorem sealRetired_leads (h : Sound ix v) (ho : v.Orderly) (hnone : ix.sealedEpoch = none) :
    Leads ix v [] ix.sealRetired
      { v with
        code := v.code.sealRetired
        depth := v.depth.sealRetired
        gate := { v.gate with epoch := v.gate.epoch.other }
        sealedEpoch := some v.gate.epoch } := by
  rw [h.sealedEpoch] at hnone
  obtain ⟨hcode, hdepth, hreaders⟩ := ho.idle hnone
  refine ⟨.single (.turn hnone), ⟨h.code.sealRetired_laid hcode, h.depth.sealRetired_laid hdepth,
    h.codeReady, h.depthReady, h.gate.turn, h.closed, ?_, h.taken⟩, ?_,
    .of_core rfl fun _ => rfl, .of_core rfl fun _ => rfl⟩
  · show some ix.gate.epoch = _
    rw [h.gate.epoch_eq]
  · -- neither of the two assumptions is broken
    have hdrained : ix.gate.hasDrained ix.gate.epoch.other = true := by
      rw [h.gate.hasDrained_eq, h.gate.epoch_eq]
      exact decide_eq_true hreaders
    have hsealed : (!ix.code.hasSealed && !ix.depth.hasSealed) = true := by
      rw [h.code.hasSealed_eq, h.depth.hasSealed_eq, hcode, hdepth]
      rfl
    show ((ix.host.check _ _).check _ _).books = _
    rw [hdrained, hsealed, Host.check_of_true, Host.check_of_true, List.append_nil]

/-! ## A whole collection -/

/-- What a collection did: `released` were let go of, and the events say so. -/
structure Collected (keep : Option SlotId) (v : View) (es : List Event)
    (released : List (Entry CodeRecord)) (v' : View) : Prop where
  codeLinked : v'.code.linked = v.code.linked
  depthLinked : v'.depth.linked = v.depth.linked
  codeOrphans : v'.code.orphans = v.code.orphans
  taken : v'.taken = v.taken
  generation : v'.gate.generation = v.gate.generation
  parked : (released ++ (v'.code.retired ++ v'.code.sealed)).Perm (v.code.retired ++ v.code.sealed)
  events : es.Perm (disposal keep released)
  ended : (∃ e, v'.sealedEpoch = some e ∧ v'.gate.readers e ≠ 0) ∨
    (v'.sealedEpoch = none ∧ (v'.code.retired = [] ∧ v'.code.sealed = []) ∧
      v'.depth.retired = [] ∧ v'.depth.sealed = [])

theorem disposal_append (keep : Option SlotId) (es fs : List (Entry CodeRecord)) :
    (disposal keep es ++ disposal keep fs).Perm (disposal keep (es ++ fs)) := by
  rw [List.perm_iff_count]
  intro ev
  simp only [disposal, List.filter_append, List.map_append, List.count_append]
  omega

theorem collectKeeping_release {epoch : Epoch} (keep : Option SlotId)
    (hsealed : ix.sealedEpoch = some epoch) (hdrained : ix.gate.hasDrained epoch = true) :
    ix.collectKeeping keep =
      (((ix.release epoch keep).2.collectKeeping keep).1 <|> (ix.release epoch keep).1,
        ((ix.release epoch keep).2.collectKeeping keep).2) := by
  rw [collectKeeping]
  split
  · rename_i e he
    obtain rfl : e = epoch := Option.some.inj (he.symm.trans hsealed)
    rw [if_pos hdrained]
  · rename_i hnone
    cases hsealed.symm.trans hnone

theorem collectKeeping_blocked {epoch : Epoch} (keep : Option SlotId)
    (hsealed : ix.sealedEpoch = some epoch) (hdrained : ¬ ix.gate.hasDrained epoch = true) :
    ix.collectKeeping keep = (none, ix) := by
  rw [collectKeeping]
  split
  · rename_i e he
    obtain rfl : e = epoch := Option.some.inj (he.symm.trans hsealed)
    rw [if_neg hdrained]
  · rename_i hnone
    cases hsealed.symm.trans hnone

theorem collectKeeping_turn (keep : Option SlotId) (hnone : ix.sealedEpoch = none)
    (hretired : ix.hasRetired = true) :
    ix.collectKeeping keep = ix.sealRetired.collectKeeping keep := by
  rw [collectKeeping]
  split
  · rename_i e he
    cases he.symm.trans hnone
  · rw [dif_pos hretired]

theorem collectKeeping_idle (keep : Option SlotId) (hnone : ix.sealedEpoch = none)
    (hretired : ¬ ix.hasRetired = true) : ix.collectKeeping keep = (none, ix) := by
  rw [collectKeeping]
  split
  · rename_i e he
    cases he.symm.trans hnone
  · rw [dif_neg hretired]

theorem Sound.hasRetired_iff (h : Sound ix v) :
    ix.hasRetired = true ↔ ¬ (v.code.retired = [] ∧ v.depth.retired = []) := by
  unfold hasRetired
  rw [h.code.hasRetired_eq, h.depth.hasRetired_eq]
  cases v.code.retired <;> cases v.depth.retired <;> simp

/-- A collection that starts with a release, and one that goes on from there. -/
theorem Collected.after_release {keep : Option SlotId} {es : List Event}
    {later : List (Entry CodeRecord)} {v' : View}
    (h : Collected keep
      { v with code := v.code.reclaim, depth := v.depth.reclaim, sealedEpoch := none }
      es later v') :
    Collected keep v (disposal keep v.code.sealed ++ es) (v.code.sealed ++ later) v' where
  codeLinked := h.codeLinked
  depthLinked := h.depthLinked
  codeOrphans := h.codeOrphans
  taken := h.taken
  generation := h.generation
  parked := by
    have hparked := h.parked
    simp only [Layout.reclaim, List.append_nil] at hparked
    rw [List.append_assoc]
    exact (hparked.append_left _).trans List.perm_append_comm
  events := (h.events.append_left _).trans (disposal_append ..)
  ended := h.ended

/-- A collection that starts with a new epoch, and one that goes on from there. -/
theorem Collected.after_turn {keep : Option SlotId} {es : List Event}
    {released : List (Entry CodeRecord)} {v' : View} (hsealed : v.code.sealed = [])
    (h : Collected keep
      { v with
        code := v.code.sealRetired
        depth := v.depth.sealRetired
        gate := { v.gate with epoch := v.gate.epoch.other }
        sealedEpoch := some v.gate.epoch } es released v') :
    Collected keep v es released v' where
  codeLinked := h.codeLinked
  depthLinked := h.depthLinked
  codeOrphans := h.codeOrphans
  taken := h.taken
  generation := h.generation
  parked := by
    have hparked := h.parked
    simp only [Layout.sealRetired, List.nil_append] at hparked
    rwa [hsealed, List.append_nil]
  events := h.events
  ended := h.ended

theorem Collected.refl (keep : Option SlotId)
    (hended : (∃ e, v.sealedEpoch = some e ∧ v.gate.readers e ≠ 0) ∨
      (v.sealedEpoch = none ∧ (v.code.retired = [] ∧ v.code.sealed = []) ∧
        v.depth.retired = [] ∧ v.depth.sealed = [])) : Collected keep v [] [] v :=
  ⟨rfl, rfl, rfl, rfl, rfl, List.Perm.refl _, List.Perm.refl _, hended⟩

/-- A collection is a path of moves, and its answer is the table of the node to keep. -/
theorem collectKeeping_spec (ix : Index) (keep : Option SlotId) : ∀ {v : View}, Sound ix v →
    v.Orderly → ∃ es released v', Leads ix v es (ix.collectKeeping keep).2 v' ∧
      Collected keep v es released v' ∧
      (ix.collectKeeping keep).1 =
        (released.filter fun e => some e.id == keep).getLast?.map fun e => e.payload.owned := by
  induction ix using collectKeeping.induct keep with
  | case1 =>
      rename_i ix epoch hsealed hdrained released ih
      intro v h ho
      obtain ⟨hanswer, hlead⟩ := release_leads h hsealed hdrained keep
      obtain ⟨es, later, v', hlater, hcol, hkept⟩ := ih hlead.sound (hlead.moves.orderly ho)
      rw [collectKeeping_release keep hsealed hdrained]
      refine ⟨_, _, v', hlead.trans hlater, hcol.after_release, ?_⟩
      show (((ix.release epoch keep).2.collectKeeping keep).1 <|> (ix.release epoch keep).1) = _
      rw [hanswer, hkept, List.filter_append, List.getLast?_append]
      cases (later.filter fun e => some e.id == keep).getLast? <;> simp
  | case2 ix epoch hsealed hdrained =>
      intro v h ho
      rw [collectKeeping_blocked keep hsealed hdrained]
      refine ⟨_, _, v, .refl h, .refl keep (Or.inl ⟨epoch, h.sealedEpoch ▸ hsealed, ?_⟩), rfl⟩
      rw [h.gate.hasDrained_eq] at hdrained
      simpa using hdrained
  | case3 ix hnone hretired ih =>
      intro v h ho
      have hlead := sealRetired_leads h ho hnone
      obtain ⟨es, released, v', hlater, hcol, hkept⟩ := ih hlead.sound (hlead.moves.orderly ho)
      rw [collectKeeping_turn keep hnone hretired]
      have hsealed := (ho.idle (h.sealedEpoch ▸ hnone)).1
      exact ⟨_, _, v', hlead.trans hlater, hcol.after_turn hsealed, hkept⟩
  | case4 ix hnone hretired =>
      intro v h ho
      rw [h.hasRetired_iff, not_not] at hretired
      rw [collectKeeping_idle keep hnone (by rw [h.hasRetired_iff]; exact not_not.mpr hretired)]
      rw [h.sealedEpoch] at hnone
      obtain ⟨hcode, hdepth, -⟩ := ho.idle hnone
      exact ⟨_, _, v, .refl h,
        .refl keep (Or.inr ⟨hnone, ⟨hretired.1, hcode⟩, hretired.2, hdepth⟩), rfl⟩

end Index

end JitIndex
