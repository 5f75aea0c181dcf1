import JitIndex.Proofs.Session.Running
import Mathlib.Logic.Relation

/-!
# Acts

Some commands do several things in a row: a row of regions is registered one by
one, and a removal waits for readers who come and go meanwhile. `Act` is one
thing at a time. An act links one node at most, and between two acts any handle
may be used; in particular, readers may pin themselves and leave between two
polls of a removal. Every run is made up of acts (`run_acts`), so what holds
after all acts holds at every moment of a run.
-/

namespace JitIndex

/-- Whether a command does one thing at most, and never waits. -/
def Command.isSingle : Command → Bool
  | .writer (.fillCode _ _ _) | .writer (.fillDepth _ _ _) | .writer (.addDepthMap _ _ _)
  | .writer (.removeCode _ _) => false
  | _ => true

namespace Session

/-- One act: a command that does one thing, or one of the things that the others do. -/
inductive Act : Session → Session → Prop
  | command {s : Session} {c : Command} (hsingle : c.isSingle = true) : Act s (s.step c).2
  | unlink {s : Session} (hwriter : s.writer = true) (start : Addr) :
      Act s { s with index := (s.index.unlinkCode start).2 }
  | poll {s : Session} (hwriter : s.writer = true) (id : SlotId) :
      Act s { s with index := (s.index.pollRemoval id).2 }
  | log {s : Session} (hwriter : s.writer = true) {e : Event} (he : e.channel ≠ .books) :
      Act s { s with index := s.index.note e }

abbrev Acts : Session → Session → Prop := Relation.ReflTransGen Act

variable {s s' : Session} {sc sc' : Scene}

/-! ## Runs are made up of acts -/

theorem command_acts {c : Command} (hsingle : c.isSingle = true) : Acts s (s.step c).2 :=
  Relation.ReflTransGen.single (.command hsingle)

/-- Acts of a writer that is there and stays. -/
def WriterActs (s s' : Session) : Prop := Acts s s' ∧ s'.writer = true

/-- A command of the writer that does one thing to the index. -/
theorem writer_acts (hwriter : s.writer = true) {c : WriterCommand}
    (hsingle : (Command.writer c).isSingle = true) {ix : Index}
    (hstep : (s.stepWriter c).2 = { s with index := ix }) :
    WriterActs s { s with index := ix } := by
  have hrun : (s.step (.writer c)).2 = { s with index := ix } := by
    rw [step_writer_eq hwriter, hstep]
  exact ⟨hrun ▸ command_acts hsingle, hwriter⟩

theorem addCode_acts (hwriter : s.writer = true) (region : CodeRegion) :
    WriterActs s { s with index := (s.index.addCode region).2 } :=
  writer_acts hwriter (c := .addCode region) rfl rfl

theorem addDepth_acts (hwriter : s.writer = true) (region : DepthRegion) :
    WriterActs s { s with index := (s.index.addDepth region).2 } :=
  writer_acts hwriter (c := .addDepth region) rfl rfl

theorem WriterActs.trans {s s' s'' : Session} (h : WriterActs s s') (h' : WriterActs s' s'') :
    WriterActs s s'' := ⟨h.1.trans h'.1, h'.2⟩

theorem fill_acts {add : Index → Span → Nat → Except Failure Unit × Index} (stride : Addr)
    (hadd : ∀ {s : Session} span n, s.writer = true →
      WriterActs s { s with index := (add s.index span n).2 }) :
    ∀ {count n : Nat} {span : Span} {s : Session}, s.writer = true →
      WriterActs s { s with index := (fill add stride count n span s.index).2 }
  | 0, _, _, _, hwriter => ⟨.refl, hwriter⟩
  | count + 1, n, span, s, hwriter => by
      have hfirst := hadd span n hwriter
      unfold fill
      split
      · rename_i f ix hrun
        rwa [hrun] at hfirst
      · rename_i ix hrun
        rw [hrun] at hfirst
        exact hfirst.trans (fill_acts (s := { s with index := ix }) stride hadd hwriter)

theorem addDepths_acts : ∀ {rs : List DepthRegion} {s : Session}, s.writer = true →
    WriterActs s { s with index := (s.index.addDepths rs).2 }
  | [], _, hwriter => ⟨.refl, hwriter⟩
  | r :: rs, s, hwriter => by
      have hfirst := addDepth_acts hwriter r
      unfold Index.addDepths
      split
      · rename_i f ix hrun
        rwa [hrun] at hfirst
      · rename_i ix hrun
        rw [hrun] at hfirst
        exact hfirst.trans (addDepths_acts (s := { s with index := ix }) hwriter)

theorem addDepthsDown_acts (start : Addr) {changes : List (Addr × UInt32)} {stop : Addr}
    {s : Session} (hwriter : s.writer = true) :
    WriterActs s { s with index := (s.index.addDepthsDown start stop changes).2 } := by
  rw [Index.addDepthsDown_eq]
  exact addDepths_acts hwriter

theorem dropPins_acts (hwriter : s.writer = true) : WriterActs s s.dropPins := by
  refine ⟨command_acts (c := .unpinAll) rfl, ?_⟩
  rw [dropPins_eq hwriter]
  exact hwriter

theorem await_acts (warnAfter : UInt32) (id : SlotId) (releaseAfter : Nat) : ∀ (polls : Nat)
    (w : Wait) {s : Session}, s.writer = true →
    WriterActs s ((removal id releaseAfter).await warnAfter polls w s).2.2
  | 0, _, _, hwriter => ⟨.refl, hwriter⟩
  | polls + 1, w, s, hwriter => by
      have hpoll : WriterActs s ((removal id releaseAfter).poll s).2 :=
        ⟨.single (.poll hwriter id), hwriter⟩
      unfold Waitable.await
      split
      · rename_i owned s₁ hrun
        rwa [hrun] at hpoll
      · rename_i s₁ hrun
        rw [hrun] at hpoll
        have hpass : WriterActs s₁ ((removal id releaseAfter).pass w.hints w.pause.hints s₁) := by
          show WriterActs s₁ (if _ then s₁.dropPins else s₁)
          split
          · exact dropPins_acts hpoll.2
          · exact ⟨.refl, hpoll.2⟩
        have hround : WriterActs s₁ ((removal id releaseAfter).round warnAfter w s₁).2 := by
          unfold Waitable.round
          dsimp only
          split
          · exact hpass.trans ⟨.single (.log hpass.2 (by rintro ⟨⟩)), hpass.2⟩
          · exact hpass
        exact (hpoll.trans hround).trans (await_acts warnAfter id releaseAfter polls _ hround.2)

theorem removeCode_acts (hwriter : s.writer = true) (start : Addr) (releaseAfter : Option Nat) :
    Acts s (s.removeCode start releaseAfter).2 := by
  have hunlink : WriterActs s { s with index := (s.index.unlinkCode start).2 } :=
    ⟨.single (.unlink hwriter start), hwriter⟩
  unfold removeCode
  split
  · exact .refl
  · split
    · exact .refl
    · split
      · rename_i ix hrun
        rw [hrun] at hunlink
        exact hunlink.1
      · rename_i id ix hrun
        rw [hrun] at hunlink
        have hawait := hunlink.trans (await_acts ix.settings.warnAfter id
          ((releaseAfter.map (max 1)).getD 0) ((releaseAfter.map (max 1)).getD 0 + 1) {} hunlink.2)
        dsimp only
        split
        · rename_i w s₁ hrun'
          rw [hrun'] at hawait
          exact hawait.1
        · rename_i owned w s₁ hrun'
          rw [hrun'] at hawait
          exact hawait.1.tail (.log hawait.2 (by rintro ⟨⟩))

theorem step_acts (s : Session) (c : Command) : Acts s (s.step c).2 := by
  by_cases hsingle : c.isSingle = true
  · exact command_acts hsingle
  · match c, hsingle with
    | .writer command, hsingle =>
        by_cases hwriter : s.writer = true
        · rw [step_writer_eq hwriter]
          match command, hsingle with
          | .fillCode first stride count, _ =>
              exact (fill_acts stride
                (fun span n h => addCode_acts h (filledCode span n)) hwriter).1
          | .fillDepth first stride count, _ =>
              exact (fill_acts stride
                (fun span n h => addDepth_acts h (filledDepth span n)) hwriter).1
          | .addDepthMap start stop changes, _ => exact (addDepthsDown_acts start hwriter).1
          | .removeCode start releaseAfter, _ => exact removeCode_acts hwriter start releaseAfter
        · unfold step
          dsimp only
          rw [if_neg hwriter]

theorem run_acts : ∀ (s : Session) (cs : List Command), Acts s (s.run cs)
  | _, [] => .refl
  | s, c :: cs => (step_acts s c).trans (run_acts (s.step c).2 cs)

/-! ## Acts lead from scene to scene -/

theorem act_leads (h : Sound s sc) (hs : Settled s sc) (hact : Act s s') :
    ∃ es sc', Leads s sc es s' sc' ∧ Settled s' sc' := by
  cases hact with
  | command hsingle =>
      obtain ⟨es, sc', hstep⟩ := step_stepped h hs _
      exact ⟨es, sc', hstep.leads, hstep.settled⟩
  | unlink hwriter start =>
      obtain ⟨n, v, hwork, -⟩ := Index.unlinkCode_works h.index start
      obtain ⟨es, hlead, -⟩ := Works.write h hwriter hwork
      exact ⟨es, _, hlead, hs.setIndex hwriter _ _⟩
  | poll hwriter id =>
      obtain ⟨es, released, v, hlead, -⟩ :=
        Index.collectKeeping_spec s.index (some id) h.index (h.attended hwriter)
      exact ⟨es, _, .write h hwriter hlead,
        hs.setIndex hwriter _ _⟩
  | log hwriter he =>
      have hnote := (Index.Leads.refl h.index).note he
      exact ⟨[], _, .write h hwriter hnote,
        hs.setIndex hwriter _ _⟩

theorem acts_lead (h : Sound s sc) (hs : Settled s sc) (hacts : Acts s s') :
    ∃ es sc', Leads s sc es s' sc' ∧ Settled s' sc' := by
  induction hacts with
  | refl => exact ⟨[], sc, .refl h, hs⟩
  | tail _ hact ih =>
      obtain ⟨es, sc₁, hlead, hsettled⟩ := ih
      obtain ⟨fs, sc', hlead', hsettled'⟩ := act_leads hlead.sound hsettled hact
      exact ⟨es ++ fs, sc', hlead.trans hlead', hsettled'⟩

theorem acts_reached (settings : Settings) (allocator : Allocator)
    (hacts : Acts (start settings allocator) s) : ∃ sc, Reached settings allocator s sc := by
  obtain ⟨es, sc, hlead, hsettled⟩ :=
    acts_lead (start_sound settings allocator) (start_settled settings allocator) hacts
  exact ⟨sc, hlead.reached hsettled⟩

end Session

end JitIndex
