import JitIndex.Proofs.Session.Acting
import JitIndex.Proofs.SkipList.Editing

/-!
# Acts are edits

Whatever is done to an index is, for each of its two lists, an edit: a
collection tidies both, a removal prunes what it removes from, and a
registration inserts into one of them. An act registers one region at most, so
all that it does to a list is one edit (`Session.act_edited`). Readers and
their pins leave the lists alone; only when the last handle goes away, what a
writer left behind is let go of.

None of this depends on what the lists hold, so it is read off the operations.
-/

namespace JitIndex

namespace Index

variable {ix ix' ix'' : Index}

structure Tidied (ix ix' : Index) : Prop where
  code : SkipList.Tidied ix.code ix'.code
  depth : SkipList.Tidied ix.depth ix'.depth

structure Pruned (ix ix' : Index) : Prop where
  code : SkipList.Pruned ix.code ix'.code
  depth : SkipList.Pruned ix.depth ix'.depth

structure Edited (ix ix' : Index) : Prop where
  code : SkipList.Edited ix.code ix'.code
  depth : SkipList.Edited ix.depth ix'.depth

theorem Tidied.refl (ix : Index) : Tidied ix ix := ⟨.refl, .refl⟩

theorem Tidied.trans (h : Tidied ix ix') (h' : Tidied ix' ix'') : Tidied ix ix'' :=
  ⟨h.code.trans h'.code, h.depth.trans h'.depth⟩

theorem Tidied.note (h : Tidied ix ix') (e : Event) : Tidied ix (ix'.note e) := ⟨h.code, h.depth⟩

theorem Tidied.pruned (h : Tidied ix ix') : Pruned ix ix' :=
  ⟨SkipList.Tidied.pruned h.code, SkipList.Tidied.pruned h.depth⟩

theorem Pruned.refl (ix : Index) : Pruned ix ix := ⟨.refl, .refl⟩

theorem Pruned.trans (h : Pruned ix ix') (h' : Pruned ix' ix'') : Pruned ix ix'' :=
  ⟨h.code.trans h'.code, h.depth.trans h'.depth⟩

theorem Pruned.note (h : Pruned ix ix') (e : Event) : Pruned ix (ix'.note e) := ⟨h.code, h.depth⟩

theorem Pruned.edited (h : Pruned ix ix') : Edited ix ix' := ⟨.pruned h.code, .pruned h.depth⟩

/-- What leaves both lists as they are prunes nothing. -/
theorem Pruned.of_same (hcode : ix'.code = ix.code) (hdepth : ix'.depth = ix.depth) :
    Pruned ix ix' := by
  constructor
  · rw [hcode]
  · rw [hdepth]

/-! ## The lists of a mutation -/

section

variable {β : Type} (ix : Index) (unlinked : β → Nat)

/-- A mutation changes the lists as the change in it does. The gate is kept a variable here as
well. -/
theorem lists_mutate (change : Index → β × Index) :
    (ix.mutate change).2.code = (change ix.beginMutation).2.code ∧
      (ix.mutate change).2.depth = (change ix.beginMutation).2.depth := by
  have hfields : ∀ (g : Gate) (changed ix' : Index), ix' = { changed with gate := g } →
      ix'.code = changed.code ∧ ix'.depth = changed.depth := by
    rintro g changed ix' rfl
    exact ⟨rfl, rfl⟩
  exact hfields _ _ _ rfl

theorem code_mutate (change : Index → β × Index) :
    (ix.mutate change).2.code = (change ix.beginMutation).2.code := (ix.lists_mutate change).1

theorem depth_mutate (change : Index → β × Index) :
    (ix.mutate change).2.depth = (change ix.beginMutation).2.depth := (ix.lists_mutate change).2

theorem code_beginMutation : ix.beginMutation.code = ix.code := rfl

theorem depth_beginMutation : ix.beginMutation.depth = ix.depth := rfl

theorem code_changeCode (change : SkipList CodeRecord → β × SkipList CodeRecord) :
    (ix.changeCode unlinked change).2.code = (change ix.code).2 := rfl

theorem depth_changeCode (change : SkipList CodeRecord → β × SkipList CodeRecord) :
    (ix.changeCode unlinked change).2.depth = ix.depth := rfl

theorem code_changeDepth (change : SkipList Payload → β × SkipList Payload) :
    (ix.changeDepth unlinked change).2.code = ix.code := rfl

theorem depth_changeDepth (change : SkipList Payload → β × SkipList Payload) :
    (ix.changeDepth unlinked change).2.depth = (change ix.depth).2 := rfl

end

/-! ## Collecting -/

theorem collectKeeping_tidied (ix : Index) (keep : Option SlotId) :
    Tidied ix (ix.collectKeeping keep).2 := by
  induction ix using collectKeeping.induct keep with
  | case1 ix epoch hsealed hdrained released ih =>
      have hrelease : Tidied ix (ix.release epoch keep).2 := ⟨.single .reclaim, .single .reclaim⟩
      rw [collectKeeping_release keep hsealed hdrained]
      exact hrelease.trans ih
  | case2 ix epoch hsealed hdrained =>
      rw [collectKeeping_blocked keep hsealed hdrained]
      exact .refl ix
  | case3 ix hnone hretired ih =>
      have hturn : Tidied ix ix.sealRetired := ⟨.single .sealRetired, .single .sealRetired⟩
      rw [collectKeeping_turn keep hnone hretired]
      exact hturn.trans ih
  | case4 ix hnone hretired =>
      rw [collectKeeping_idle keep hnone hretired]
      exact .refl ix

theorem collect_tidied (ix : Index) : Tidied ix ix.collect := ix.collectKeeping_tidied none

/-! ## Registering -/

theorem registerCode_inserts (ix : Index) (region : CodeRegion) :
    SkipList.Insertion ix.code (ix.registerCode region).2.code ∧
      (ix.registerCode region).2.depth = ix.depth := by
  unfold registerCode linkCode
  dsimp only
  split
  · rename_i halloc
    exact ⟨.refused halloc, rfl⟩
  · rename_i halloc
    simp only [code_mutate, depth_mutate, code_changeCode, depth_changeCode, code_beginMutation,
      depth_beginMutation]
    exact ⟨.linked halloc, trivial⟩

theorem registerDepth_inserts (ix : Index) (region : DepthRegion) :
    SkipList.Insertion ix.depth (ix.registerDepth region).2.depth ∧
      (ix.registerDepth region).2.code = ix.code := by
  unfold registerDepth linkDepth
  dsimp only
  split
  · rename_i halloc
    exact ⟨.refused halloc, rfl⟩
  · rename_i halloc
    simp only [code_mutate, depth_mutate, code_changeDepth, depth_changeDepth, code_beginMutation,
      depth_beginMutation]
    exact ⟨.linked halloc, trivial⟩

/-- The collections before and after a registration belong to the same edit. -/
theorem addCode_edited (ix : Index) (region : CodeRegion) :
    Edited ix (ix.addCode region).2 := by
  have hbefore := ix.collect_tidied
  obtain ⟨hinsert, hdepth⟩ := ix.collect.registerCode_inserts region
  have hafter : Tidied (ix.collect.registerCode region).2 (ix.addCode region).2 := by
    unfold addCode
    split
    · rename_i hrun
      rw [hrun]
      exact .refl _
    · rename_i replaced ix' hrun
      rw [hrun]
      dsimp only
      split
      · exact (((Tidied.refl ix').note _).trans (collect_tidied _)).note _
      · exact (Tidied.refl ix').note _
  refine ⟨.inserted hbefore.code hinsert hafter.code, .pruned ?_⟩
  exact SkipList.Tidied.pruned (hbefore.depth.trans (hdepth ▸ hafter.depth))

theorem addDepth_edited (ix : Index) (region : DepthRegion) :
    Edited ix (ix.addDepth region).2 := by
  have hbefore := ix.collect_tidied
  obtain ⟨hinsert, hcode⟩ := ix.collect.registerDepth_inserts region
  have hafter : Tidied (ix.collect.registerDepth region).2 (ix.addDepth region).2 := by
    unfold addDepth
    split
    · rename_i hrun
      rw [hrun]
      exact .refl _
    · rename_i replaced ix' hrun
      rw [hrun]
      dsimp only
      split
      · exact ((Tidied.refl ix').note _).trans (collect_tidied _)
      · exact .refl ix'
  refine ⟨.pruned ?_, .inserted hbefore.depth hinsert hafter.depth⟩
  exact SkipList.Tidied.pruned (hbefore.code.trans (hcode ▸ hafter.code))

/-! ## Removing -/

theorem unlinkCode_pruned (ix : Index) (start : Addr) : Pruned ix (ix.unlinkCode start).2 := by
  unfold unlinkCode
  split
  · exact .refl ix
  · constructor
    · simp only [code_mutate, code_changeCode, code_beginMutation]
      exact .single (.unlink start)
    · simp only [depth_mutate, depth_changeCode, depth_beginMutation]
      exact .refl

theorem sweepDepths_pruned (ix : Index) (low high : Addr) :
    Pruned ix (ix.sweepDepths low high).2 := by
  unfold sweepDepths
  constructor
  · simp only [code_mutate, code_changeDepth, code_beginMutation]
    exact .refl
  · simp only [depth_mutate, depth_changeDepth, depth_beginMutation]
    exact SkipList.unlinkWhile_pruned ..

theorem unlinkEverything_pruned (ix : Index) : Pruned ix ix.unlinkEverything.2 := by
  unfold unlinkEverything
  constructor
  · simp only [code_mutate, code_changeDepth, code_changeCode, code_beginMutation]
    exact SkipList.unlinkWhile_pruned ..
  · simp only [depth_mutate, depth_changeDepth, depth_changeCode, depth_beginMutation]
    exact SkipList.unlinkWhile_pruned ..

theorem clearDepths_pruned (ix : Index) (span : Span) : Pruned ix (ix.clearDepths span).2 := by
  unfold clearDepths
  split
  · exact .refl ix
  · have hswept := ix.sweepDepths_pruned span.start (span.start.addSat (span.size - 1))
    dsimp only
    refine Pruned.note ?_ _
    split
    · exact hswept
    · exact hswept.trans (collect_tidied _).pruned

theorem freeBlock_pruned (ix : Index) (start stop : Addr) : Pruned ix (ix.freeBlock start stop) :=
  (ix.unlinkCode_pruned start).trans <| (clearDepths_pruned ..).trans (collect_tidied _).pruned

theorem clear_pruned (ix : Index) : Pruned ix ix.clear := by
  unfold clear
  split
  · exact .refl ix
  · exact (ix.unlinkEverything_pruned.trans (collect_tidied _).pruned).note _

theorem abandon_tidied (ix : Index) : Tidied ix ix.abandon := by
  unfold abandon
  split
  · exact ⟨.single .orphan, .refl⟩
  · exact .refl ix

theorem closeWriter_pruned (ix : Index) : Pruned ix ix.closeWriter :=
  ix.clear_pruned.trans ((collect_tidied _).trans (abandon_tidied _)).pruned

theorem dispose_tidied (ix : Index) : Tidied ix ix.dispose := ⟨.single .drain, .refl⟩

end Index

namespace Session

open Index (Pruned Edited)

variable {s s' : Session}

/-! ## Handles -/

theorem settle_pruned {ix : Index} (h : Pruned ix s.index) : Pruned ix s.settle.index := by
  unfold settle
  split
  · exact h
  · exact h.trans s.index.dispose_tidied.pruned

theorem takePin_pruned (s : Session) : Pruned s.index s.takePin.2.index := by
  unfold takePin Index.pin?
  cases s.index.gate.pin? with
  | none => exact .refl s.index
  | some pair => exact .of_same rfl rfl

theorem takePins_pruned (count : Nat) (s : Session) : Pruned s.index (s.takePins count).index := by
  induction count generalizing s with
  | zero => exact .refl s.index
  | succ count ih => exact s.takePin_pruned.trans (ih s.takePin.2)

theorem dropPin_pruned (s : Session) (n : Nat) : Pruned s.index (s.dropPin n).index := by
  unfold dropPin
  split
  · exact .refl s.index
  · exact settle_pruned (.of_same rfl rfl)

theorem dropPins_pruned (s : Session) : Pruned s.index s.dropPins.index := by
  obtain ⟨-, hcode, hdepth⟩ := foldl_release s.pins.toList s.index
  rw [Array.foldl_toList] at hcode hdepth
  exact settle_pruned (.of_same hcode hdepth)

theorem dropWriter_pruned (s : Session) : Pruned s.index s.dropWriter.index := by
  unfold dropWriter
  split
  · exact settle_pruned s.index.closeWriter_pruned
  · exact .refl s.index

/-! ## Commands -/

theorem stepReader_pruned (s : Session) (n : Nat) (c : ReaderCommand) :
    Pruned s.index (s.stepReader n c).2.index := by
  cases c with
  | traceback a =>
      refine .of_same ?_ ?_
      · exact congrArg Index.code (Index.reading_snd s.index _)
      · exact congrArg Index.depth (Index.reading_snd s.index _)
  | depthAt a =>
      refine .of_same ?_ ?_
      · exact congrArg Index.code (Index.reading_snd s.index _)
      · exact congrArg Index.depth (Index.reading_snd s.index _)
  | isOpen => exact .refl s.index
  | text => exact .refl s.index
  | clone => exact .refl s.index
  | drop => exact settle_pruned (.of_same rfl rfl)
  | pin =>
      have htaken := s.takePin_pruned
      unfold stepReader
      dsimp only
      split
      · rename_i s' htake
        rwa [htake] at htaken
      · rename_i s' htake
        rwa [htake] at htaken
  | pinMany count => exact takePins_pruned count s

theorem stepPin_pruned (s : Session) (n : Nat) (p : HeldPin) (c : PinCommand) :
    Pruned s.index (s.stepPin n p c).2.index := by
  cases c with
  | finish => exact s.dropPin_pruned n
  | unpin => exact s.dropPin_pruned n
  | _ => exact .refl s.index

/-- What a command of the writer does to the lists, if it does one thing at most. -/
theorem stepWriter_edited (s : Session) (c : WriterCommand)
    (hsingle : (Command.writer c).isSingle = true) : Edited s.index (s.stepWriter c).2.index := by
  cases c with
  | addCode region => exact s.index.addCode_edited region
  | buildCode span steps =>
      have hbuilt := buildAll_snd s steps .empty
      obtain ⟨r, hr⟩ : ∃ r, s.buildAll .empty steps = (r, s) := ⟨_, Prod.ext rfl hbuilt⟩
      unfold stepWriter
      dsimp only
      rw [hr]
      dsimp only
      split
      · exact (Pruned.refl s.index).edited
      · exact s.index.addCode_edited _
  | addDepth region => exact s.index.addDepth_edited region
  | clearDepths span => exact (s.index.clearDepths_pruned span).edited
  | freeBlock start stop => exact (s.index.freeBlock_pruned start stop).edited
  | clear => exact s.index.clear_pruned.edited
  | drop => exact s.dropWriter_pruned.edited
  | settings => exact (Pruned.refl s.index).edited
  | text => exact (Pruned.refl s.index).edited
  | newReader => exact (Pruned.refl s.index).edited
  | fillCode => cases hsingle
  | fillDepth => cases hsingle
  | addDepthMap => cases hsingle
  | removeCode => cases hsingle

theorem step_edited (s : Session) {c : Command} (hsingle : c.isSingle = true) :
    Edited s.index (s.step c).2.index := by
  cases c with
  | reader n command =>
      unfold step
      dsimp only
      split
      · exact (s.stepReader_pruned n command).edited
      · exact (Pruned.refl s.index).edited
  | pin n command =>
      unfold step
      dsimp only
      split
      · exact (Pruned.refl s.index).edited
      · exact (s.stepPin_pruned n _ command).edited
  | unpinAll => exact s.dropPins_pruned.edited
  | writer command =>
      unfold step
      dsimp only
      split
      · exact s.stepWriter_edited command hsingle
      · exact (Pruned.refl s.index).edited

theorem act_edited (h : Act s s') : Edited s.index s'.index := by
  cases h with
  | command hsingle => exact s.step_edited hsingle
  | unlink hwriter start => exact (s.index.unlinkCode_pruned start).edited
  | poll hwriter id => exact (s.index.collectKeeping_tidied (some id)).pruned.edited
  | log hwriter he => exact ((Pruned.refl s.index).note _).edited

end Session

end JitIndex
