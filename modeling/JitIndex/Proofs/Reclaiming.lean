import JitIndex.Proofs.HandingBack

/-!
# Operations leave nothing behind

While nobody reads, a collection releases all that is parked. Every operation
of the writer that finds something to do ends with a collection, or begins with
one and parks nothing afterwards, so it leaves nothing behind: no node is
retired or sealed, and the frame tables that were not handed back and not
dropped belong to regions that are registered (`operations_reclaim`).

An operation that finds nothing to remove or to register does not collect, and
an index without regions is cleared by doing nothing (`step_clear_of_empty`).
What readers were in the way of before may stay where it is until the next one,
though they have left: `fruitless_removal_keeps` is such a case.
-/

namespace JitIndex

open SkipList (Layout Entry Laid)

namespace Index

variable {ix ix' : Index} {v v' : View} {es : List Event}

/-! ## While nobody reads -/

/-- An index that has no readers. -/
structure Unread (ix : Index) (v : View) : Prop where
  sound : Sound ix v
  orderly : v.Orderly
  readers : ∀ e, v.gate.readers e = 0

theorem Leads.unread (h : Leads ix v es ix' v') (hu : Unread ix v) : Unread ix' v' where
  sound := h.sound
  orderly := h.moves.orderly hu.orderly
  readers := by
    rw [h.moves.readers_eq]
    exact hu.readers

theorem Works.unread {n : Nat} {ts : List FrameTable} (h : Works ix v n ts ix' v')
    (hu : Unread ix v) : Unread ix' v' :=
  let ⟨_, hlead, _⟩ := h
  hlead.unread hu

theorem Unread.note (h : Unread ix v) {e : Event} (he : e.channel ≠ .books) :
    Unread (ix.note e) v := ((Leads.refl h.sound).note he).unread h

theorem Unread.collect (h : Unread ix v) : ix.collect.Unparked ∧ ∃ w, Unread ix.collect w := by
  obtain ⟨w, hwork, -⟩ := collect_works h.sound h.orderly
  exact ⟨collectKeeping_unparked h.sound h.orderly h.readers none, w, hwork.unread h⟩

/-- If nothing is sealed under an epoch, it is enough that nothing is retired. -/
theorem Unread.unparked (h : Unread ix v) (hnone : v.sealedEpoch = none)
    (hcode : v.code.retired = []) (hdepth : v.depth.retired = []) : ix.Unparked := by
  obtain ⟨hcodeSealed, hdepthSealed, -⟩ := h.orderly.idle hnone
  exact h.sound.unparked_iff.mpr ⟨hnone, ⟨hcode, hcodeSealed⟩, hdepth, hdepthSealed⟩

theorem Unparked.note (h : ix.Unparked) (e : Event) : (ix.note e).Unparked :=
  ⟨h.sealedEpoch, h.codeRetired, h.codeSealed, h.depthRetired, h.depthSealed⟩

/-! ## Registering -/

theorem retired_of_new {α : Type} {retired kept : List (Entry α)} {found : Option (Entry α)}
    (hretired : retired = found.toList ++ kept) (hkept : kept = [])
    (hnew : ∀ old, (.ok found : Except Failure (Option (Entry α))) ≠ .ok (some old)) :
    retired = [] := by
  cases found with
  | none => rw [hretired, hkept, Option.toList_none, List.nil_append]
  | some old => exact absurd rfl (hnew old)

/-- Only what is replaced is parked when a code region is registered. -/
theorem registerCode_unparked (h : Unread ix v) (hun : ix.Unparked) (region : CodeRegion) :
    ∃ w, Unread (ix.registerCode region).2 w ∧
      ((∀ old, (ix.registerCode region).1 ≠ .ok (some old)) →
        (ix.registerCode region).2.Unparked) := by
  obtain ⟨hnone, ⟨hcode, -⟩, hdepth, -⟩ := h.sound.unparked_iff.mp hun
  rcases registerCode_spec h.sound region with
    ⟨ix', hrun, hlead⟩ | ⟨e, ix', c, -, -, hrun, hlead, -, hretired⟩ <;> rw [hrun]
  · exact ⟨_, hlead.unread h, fun _ => (hlead.unread h).unparked hnone hcode hdepth⟩
  · refine ⟨_, hlead.unread h, fun hnew => ?_⟩
    exact (hlead.unread h).unparked hnone (retired_of_new hretired hcode hnew) hdepth

theorem registerDepth_unparked (h : Unread ix v) (hun : ix.Unparked) (region : DepthRegion) :
    ∃ w, Unread (ix.registerDepth region).2 w ∧
      ((∀ old, (ix.registerDepth region).1 ≠ .ok (some old)) →
        (ix.registerDepth region).2.Unparked) := by
  obtain ⟨hnone, ⟨hcode, -⟩, hdepth, -⟩ := h.sound.unparked_iff.mp hun
  rcases registerDepth_spec h.sound region with
    ⟨ix', hrun, hlead⟩ | ⟨e, ix', d, -, -, hrun, hlead, -, hretired⟩ <;> rw [hrun]
  · exact ⟨_, hlead.unread h, fun _ => (hlead.unread h).unparked hnone hcode hdepth⟩
  · refine ⟨_, hlead.unread h, fun hnew => ?_⟩
    exact (hlead.unread h).unparked hnone hcode (retired_of_new hretired hdepth hnew)

theorem addCode_unparked (h : Unread ix v) (region : CodeRegion) :
    (ix.addCode region).2.Unparked ∧ ∃ w, Unread (ix.addCode region).2 w := by
  obtain ⟨hcollected, w, hw⟩ := h.collect
  obtain ⟨w', hw', hnew⟩ := registerCode_unparked hw hcollected region
  unfold addCode
  generalize ix.collect.registerCode region = result at hw' hnew ⊢
  have hadded : (Event.codeAdded region.toSpan).channel ≠ .books := by rintro ⟨⟩
  rcases result with ⟨f | _ | old, ix'⟩
  · exact ⟨hnew (by rintro _ ⟨⟩), w', hw'⟩
  · exact ⟨(hnew (by rintro _ ⟨⟩)).note _, w', hw'.note hadded⟩
  · have hnoted := hw'.note (e := .codeReplaced region.start) (by rintro ⟨⟩)
    obtain ⟨hun, w'', hw''⟩ := hnoted.collect
    exact ⟨hun.note _, w'', hw''.note hadded⟩

theorem addDepth_unparked (h : Unread ix v) (region : DepthRegion) :
    (ix.addDepth region).2.Unparked ∧ ∃ w, Unread (ix.addDepth region).2 w := by
  obtain ⟨hcollected, w, hw⟩ := h.collect
  obtain ⟨w', hw', hnew⟩ := registerDepth_unparked hw hcollected region
  unfold addDepth
  generalize ix.collect.registerDepth region = result at hw' hnew ⊢
  rcases result with ⟨f | _ | old, ix'⟩
  · exact ⟨hnew (by rintro _ ⟨⟩), w', hw'⟩
  · exact ⟨hnew (by rintro _ ⟨⟩), w', hw'⟩
  · have hnoted := hw'.note (e := .depthReplaced region.start) (by rintro ⟨⟩)
    exact hnoted.collect

/-- A row of regions, unless it has none. -/
theorem fill_unparked {add : Index → Span → Nat → Except Failure Unit × Index} (stride : Addr)
    (hadd : ∀ {ix : Index} {v : View} (span : Span) (n : Nat), Unread ix v →
      (add ix span n).2.Unparked ∧ ∃ w, Unread (add ix span n).2 w) :
    ∀ (count n : Nat) (span : Span) {ix : Index} {v : View}, Unread ix v →
      (count = 0 → ix.Unparked) → (Session.fill add stride count n span ix).2.Unparked
  | 0, _, _, _, _, _, hnone => hnone rfl
  | count + 1, n, span, ix, v, h, _ => by
      obtain ⟨hun, w, hw⟩ := hadd span n h
      unfold Session.fill
      generalize add ix span n = result at hun hw ⊢
      rcases result with ⟨f | _, ix'⟩
      · exact hun
      · exact fill_unparked stride hadd count (n + 1) _ hw fun _ => hun

/-- Regions that are registered one after another, unless there are none. -/
theorem addDepths_unparked : ∀ (rs : List DepthRegion) {ix : Index} {v : View}, Unread ix v →
    (rs = [] → ix.Unparked) → (ix.addDepths rs).2.Unparked
  | [], _, _, _, hnone => hnone rfl
  | r :: rs, ix, v, h, _ => by
      obtain ⟨hun, w, hw⟩ := addDepth_unparked h r
      unfold addDepths
      generalize ix.addDepth r = result at hun hw ⊢
      rcases result with ⟨f | _, ix'⟩
      · exact hun
      · exact addDepths_unparked rs hw fun _ => hun

/-! ## Removing -/

theorem clearDepths_unparked (h : Unread ix v) (span : Span)
    (hfound : (ix.clearDepths span).1 ≠ 0) : (ix.clearDepths span).2.Unparked := by
  unfold clearDepths at hfound ⊢
  split at hfound
  · exact absurd rfl hfound
  · rename_i hsize
    obtain ⟨es, ix', d, hrun, -, hlead, -⟩ :=
      sweepDepths_spec h.sound span.start (span.start.addSat (span.size - 1))
    rw [if_neg hsize]
    simp only [hrun] at hfound ⊢
    have hsome : ¬ es.isEmpty = true := by
      rw [List.isEmpty_iff_length_eq_zero]
      exact hfound
    rw [if_neg hsome]
    exact (hlead.unread h).collect.1.note _

theorem freeBlock_unparked (h : Unread ix v) (start stop : Addr) :
    (ix.freeBlock start stop).Unparked := by
  obtain ⟨_, v₁, hwork₁, -⟩ := unlinkCode_works h.sound start
  have h₁ := hwork₁.unread h
  obtain ⟨ix₂, v₂, _, hrun, hwork₂, -⟩ :=
    clearDepths_works h₁.sound h₁.orderly ⟨start, stop.subSat start⟩
  unfold freeBlock
  simp only [hrun]
  exact (hwork₂.unread h₁).collect.1

theorem clear_unparked (h : Unread ix v)
    (hfound : ¬ (ix.code.first? = none ∧ ix.depth.first? = none)) : ix.clear.Unparked := by
  obtain ⟨es, ix', c, d, hrun, -, hlead, -⟩ := unlinkEverything_spec h.sound
  unfold clear
  rw [if_neg (by simpa [Option.isNone_iff_eq_none] using hfound)]
  simp only [hrun]
  exact (hlead.unread h).collect.1.note _

/-! ## Nothing to do -/

/-- What is parked in the lists of an index, and the epoch that it waits for, are as before. -/
structure SameParked (ix ix' : Index) : Prop where
  sealedEpoch : ix'.sealedEpoch = ix.sealedEpoch
  codeRetired : ix'.code.retiredEntries = ix.code.retiredEntries
  codeSealed : ix'.code.sealedEntries = ix.code.sealedEntries
  depthRetired : ix'.depth.retiredEntries = ix.depth.retiredEntries
  depthSealed : ix'.depth.sealedEntries = ix.depth.sealedEntries

theorem SameParked.refl (ix : Index) : SameParked ix ix := ⟨rfl, rfl, rfl, rfl, rfl⟩

theorem clearDepths_same (h : Sound ix v) (span : Span) (hnone : (ix.clearDepths span).1 = 0) :
    SameParked ix (ix.clearDepths span).2 := by
  unfold clearDepths at hnone ⊢
  split at hnone
  · rename_i hsize
    rw [if_pos hsize]
    exact .refl ix
  · rename_i hsize
    obtain ⟨es, ix', d, hrun, -, hlead, -, hretired, hsealed⟩ :=
      sweepDepths_spec h span.start (span.start.addSat (span.size - 1))
    rw [if_neg hsize]
    simp only [hrun] at hnone ⊢
    obtain rfl : es = [] := List.length_eq_zero_iff.mp hnone
    have h' := hlead.sound
    refine ⟨h'.sealedEpoch.trans h.sealedEpoch.symm, ?_, ?_, ?_, ?_⟩
    · exact h'.code.retiredEntries_eq.trans h.code.retiredEntries_eq.symm
    · exact h'.code.sealedEntries_eq.trans h.code.sealedEntries_eq.symm
    · exact h'.depth.retiredEntries_eq.trans (hretired.trans h.depth.retiredEntries_eq.symm)
    · exact h'.depth.sealedEntries_eq.trans (hsealed.trans h.depth.sealedEntries_eq.symm)

theorem addDepthsDown_same {start stop : Addr} {changes : List (Addr × UInt32)}
    (hnone : Registry.depthRuns start stop changes = []) :
    (ix.addDepthsDown start stop changes).2 = ix := by
  rw [addDepthsDown_eq, hnone]
  rfl

end Index

/-- The commands by which the writer changes what is registered, and stays. -/
def WriterCommand.Operates : WriterCommand → Prop
  | .drop | .settings | .text | .newReader => False
  | _ => True

namespace Session

variable {settings : Settings} {allocator : Allocator} {s : Session} {sc : Scene}

/-- Whether an operation comes to nothing, because there is nothing to register or nothing to
remove. -/
def FindsNothing (s : Session) : WriterCommand → Prop
  | .buildCode span steps => ∃ f, s.recorded span steps = .error f
  | .fillCode _ _ count | .fillDepth _ _ count => count = 0
  | .addDepthMap start stop changes => Registry.depthRuns start stop changes.reverse = []
  | .removeCode start _ => s.index.code.get? start = none
  | .clearDepths span => (s.index.clearDepths span).1 = 0
  | .clear => s.index.code.first? = none ∧ s.index.depth.first? = none
  | _ => False

theorem Sound.unread (h : Sound s sc) (hwriter : s.writer = true) (hpins : s.anyPin = false) :
    s.index.Unread sc.view := by
  refine ⟨h.index, h.attended hwriter, fun e => ?_⟩
  by_contra hreaders
  obtain ⟨n, p, hp, -⟩ := (h.reading_iff e).mp hreaders
  cases hpins.symm.trans (anyPin_iff.mpr ⟨n, p, hp⟩)

/-- Where no reader is in the way a removal ends with its first poll. -/
theorem removeCode_unparked (h : Sound s sc) (hwriter : s.writer = true) (hpins : s.anyPin = false)
    {start : Addr} (releaseAfter : Option Nat) (hfound : s.index.code.get? start ≠ none) :
    (s.removeCode start releaseAfter).2.index.Unparked := by
  have hunread := h.unread hwriter hpins
  have hget := h.index.code.get?_eq start
  rcases Index.unlinkCode_spec h.index start with ⟨hnone, -⟩ | ⟨e, ix, hsome, hunlink, hlead⟩
  · exact absurd (hget.trans hnone) hfound
  · have hunlinked := hlead.unread hunread
    have hparked : e ∈ (sc.view.mutated 0 (sc.view.code.unlink start) sc.view.depth).parked :=
      List.mem_append_left _ (Layout.mem_retired_unlink hsome)
    obtain ⟨es, w, hpolled, -, ⟨-, -, -, epoch, -, hreaders⟩ | ⟨hyields, -⟩⟩ :=
      Index.pollRemoval_cases hunlinked.sound hunlinked.orderly hparked
    · rw [hpolled.moves.readers_eq] at hreaders
      exact absurd (hunlinked.readers epoch) hreaders
    · have hun : (ix.pollRemoval e.id).2.Unparked := Index.collectKeeping_unparked
        hunlinked.sound hunlinked.orderly hunlinked.readers (some e.id)
      have hawait : ∀ polls, (removal e.id polls).await ix.settings.warnAfter (polls + 1) {}
          { s with index := ix } =
            (some e.payload.owned, {}, { s with index := (ix.pollRemoval e.id).2 }) := by
        intro polls
        refine Waitable.await_of_poll ?_ ix.settings.warnAfter polls {}
        simp only [removal, hyields]
      unfold removeCode
      rw [hget, hsome, if_neg (by simp), if_neg (by simp [hpins]), hunlink]
      simp only [hawait]
      exact hun.note _

/-- An operation that finds something to do leaves nothing parked if nobody reads. -/
theorem stepWriter_unparked (h : Sound s sc) (hwriter : s.writer = true) (hpins : s.anyPin = false)
    {command : WriterCommand} (hop : command.Operates) (hfound : ¬ s.FindsNothing command) :
    (s.step (.writer command)).2.index.Unparked := by
  have hunread := h.unread hwriter hpins
  cases command with
  | addCode region =>
      rw [step_writer_eq hwriter]
      exact (Index.addCode_unparked hunread region).1
  | buildCode span steps =>
      rw [step_buildCode hwriter]
      split
      · rename_i f hrecorded
        exact absurd ⟨f, hrecorded⟩ hfound
      · rename_i table hrecorded
        rw [step_writer_eq hwriter]
        exact (Index.addCode_unparked hunread ⟨span, table⟩).1
  | fillCode first stride count =>
      rw [step_writer_eq hwriter]
      exact Index.fill_unparked stride
        (fun span n h => Index.addCode_unparked h (filledCode span n)) count 0 first hunread
        fun hzero => absurd hzero hfound
  | fillDepth first stride count =>
      rw [step_writer_eq hwriter]
      exact Index.fill_unparked stride
        (fun span n h => Index.addDepth_unparked h (filledDepth span n)) count 0 first hunread
        fun hzero => absurd hzero hfound
  | removeCode start releaseAfter =>
      rw [step_writer_eq hwriter]
      exact removeCode_unparked h hwriter hpins releaseAfter hfound
  | addDepth region =>
      rw [step_writer_eq hwriter]
      exact (Index.addDepth_unparked hunread region).1
  | clearDepths span =>
      rw [step_writer_eq hwriter]
      exact Index.clearDepths_unparked hunread span hfound
  | addDepthMap start stop changes =>
      rw [step_writer_eq hwriter]
      show (s.index.addDepthsDown start stop changes.reverse).2.Unparked
      rw [Index.addDepthsDown_eq]
      exact Index.addDepths_unparked _ hunread fun hnone => absurd hnone hfound
  | freeBlock start stop =>
      rw [step_writer_eq hwriter]
      exact Index.freeBlock_unparked hunread start stop
  | clear =>
      rw [step_writer_eq hwriter]
      exact Index.clear_unparked hunread hfound
  | _ => exact hop.elim

theorem stepWriter_stays (h : Sound s sc) (hwriter : s.writer = true) {command : WriterCommand}
    (hop : command.Operates) : (s.step (.writer command)).2.writer = true := by
  cases command with
  | buildCode span steps =>
      rw [step_buildCode hwriter]
      split
      · exact hwriter
      · exact step_writer_of_writes hwriter rfl
  | removeCode start releaseAfter =>
      rw [step_writer_eq hwriter]
      show (s.removeCode start releaseAfter).2.writer = true
      rcases removeCode_works h hwriter start releaseAfter with
        ⟨-, hrun⟩ | ⟨e, -, ⟨-, hrun⟩ | ⟨-, hints, t, sc', es, hrun, -, -, hstays, -⟩⟩ <;> rw [hrun]
      · exact hwriter
      · exact hwriter
      · exact hstays
  | drop => exact hop.elim
  | _ => exact step_writer_of_writes hwriter rfl

/-- When there is nothing registered, to clear the index does nothing at all. -/
theorem step_clear_of_empty (hwriter : s.writer = true) (hnone : s.FindsNothing .clear) :
    s.step (.writer .clear) = (.done, s) := by
  obtain ⟨hcode, hdepth⟩ := hnone
  rw [step_writer_eq hwriter]
  show (Reply.done, { s with index := s.index.clear }) = (.done, s)
  rw [Index.clear, hcode, hdepth]
  rfl

/-- So the table of a region that was removed under a reader stays parked when he has left. -/
example :
    let s := (start {} .generous).run [.writer (.addCode ⟨⟨16, 8⟩, .ofDescriptors []⟩),
      .reader 0 .pin, .writer (.freeBlock 16 24), .pin 0 .unpin, .writer .clear]
    s.anyPin = false ∧ s.index.sealedEpoch = some 0 ∧ s.index.code.parkedEntries.length = 1 := by
  decide +kernel

/-- An operation that finds nothing to do leaves what is parked where it is. -/
theorem stepWriter_same (h : Sound s sc) (hwriter : s.writer = true) {command : WriterCommand}
    (hop : command.Operates) (hnone : s.FindsNothing command) :
    s.index.SameParked (s.step (.writer command)).2.index := by
  cases command with
  | addCode => exact hnone.elim
  | addDepth => exact hnone.elim
  | freeBlock => exact hnone.elim
  | buildCode span steps =>
      obtain ⟨f, hrecorded⟩ := hnone
      rw [step_buildCode hwriter, hrecorded]
      exact .refl s.index
  | fillCode first stride count =>
      obtain rfl : count = 0 := hnone
      rw [step_writer_eq hwriter]
      exact .refl s.index
  | fillDepth first stride count =>
      obtain rfl : count = 0 := hnone
      rw [step_writer_eq hwriter]
      exact .refl s.index
  | removeCode start releaseAfter =>
      have hnone : s.index.code.get? start = none := hnone
      rw [step_writer_eq hwriter]
      show s.index.SameParked (s.removeCode start releaseAfter).2.index
      rw [removeCode, hnone]
      exact .refl s.index
  | clearDepths span =>
      rw [step_writer_eq hwriter]
      exact Index.clearDepths_same h.index span hnone
  | addDepthMap start stop changes =>
      rw [step_writer_eq hwriter]
      show s.index.SameParked (s.index.addDepthsDown start stop changes.reverse).2
      rw [Index.addDepthsDown_same hnone]
      exact .refl s.index
  | clear =>
      rw [step_clear_of_empty hwriter hnone]
      exact .refl s.index
  | _ => exact hop.elim

/-! ## What an operation leaves -/

/-- What an operation makes of a session `s` that has no pins. -/
structure Reclaims (s : Session) (command : WriterCommand) (s' : Session) : Prop where
  /-- If there is something to do, nothing is parked afterwards, and every frame table that was
  taken over belongs to a registered region, or was handed back, or was dropped. -/
  released : ¬ s.FindsNothing command → s'.index.Unparked ∧ s'.index.code.parkedEntries = [] ∧
    (s'.index.code.entries.map tableOf ++ (s'.index.host.books.filterMap Event.returned? ++
      s'.index.host.books.filterMap Event.dropped?)).Perm
        (s'.index.host.books.filterMap Event.taken?)
  /-- If everything is removed, every table was handed back or dropped. -/
  cleared : command = .clear → ¬ s.FindsNothing command →
    (s'.index.host.books.filterMap Event.returned? ++
      s'.index.host.books.filterMap Event.dropped?).Perm
        (s'.index.host.books.filterMap Event.taken?)
  /-- If there is nothing to do, what was parked still is. -/
  idle : command ≠ .clear → s.FindsNothing command → s.index.SameParked s'.index

/-- Where nobody reads, every operation that has something to do leaves nothing behind that is not
registered. -/
theorem operations_reclaim (hacts : Acts (start settings allocator) s) (hwriter : s.writer = true)
    (hpins : s.anyPin = false) {command : WriterCommand} (hop : command.Operates) :
    Reclaims s command (s.step (.writer command)).2 := by
  obtain ⟨sc, hreached⟩ := acts_reached settings allocator hacts
  have hsound := hreached.leads.sound
  obtain ⟨sc', hreached', hstep⟩ := hreached.step (.writer command)
  have hwriter' := stepWriter_stays hsound hwriter hop
  have hplaced := hreached'.accounted.placed
  unfold places at hplaced
  have hreleased : ¬ s.FindsNothing command →
      (s.step (.writer command)).2.index.Unparked ∧
        (s.step (.writer command)).2.index.code.parkedEntries = [] := by
    intro hfound
    have hun := stepWriter_unparked hsound hwriter hpins hop hfound
    obtain ⟨-, ⟨hretired, hsealed⟩, -⟩ := hreached'.leads.sound.index.unparked_iff.mp hun
    refine ⟨hun, ?_⟩
    rw [hreached'.parkedEntries_eq hwriter', View.parked, hretired, hsealed]
    rfl
  refine ⟨fun hfound => ?_, ?_, fun _ hnone => stepWriter_same hsound hwriter hop hnone⟩
  · obtain ⟨hun, hparked⟩ := hreleased hfound
    rw [hparked] at hplaced
    exact ⟨hun, hparked, hplaced⟩
  · rintro rfl hfound
    obtain ⟨-, hparked⟩ := hreleased hfound
    obtain ⟨-, hempty⟩ := (Registry.step_writer hwriter).mp hstep
    obtain ⟨hlinked, -⟩ := View.linked_of_registry_empty hempty
    rw [hparked, hreached'.leads.sound.index.code.entries_eq, hlinked] at hplaced
    exact hplaced

/-- A region was replaced while there was a reader, who has left by now. -/
def outlived : Session := (start {} .generous).run [
  .writer (.addCode ⟨⟨16, 8⟩, .ofDescriptors []⟩), .reader 0 .pin,
  .writer (.addCode ⟨⟨16, 8⟩, .ofDescriptors []⟩), .pin 0 .unpin]

/-- What he was in the way of is released when the index is cleared. -/
theorem outlived_cleared :
    outlived.index.sealedEpoch = some 0 ∧ outlived.anyPin = false ∧ ¬ outlived.FindsNothing .clear ∧
      Reclaims outlived .clear (outlived.step (.writer .clear)).2 := by
  refine ⟨by decide +kernel, by decide +kernel, ?_, ?_⟩
  · have hsome : outlived.index.code.first?.isNone = false := by decide +kernel
    rintro ⟨hnone, -⟩
    rw [hnone] at hsome
    cases hsome
  · exact operations_reclaim (run_acts (start {} .generous) _) (by decide +kernel)
      (by decide +kernel) trivial

/-- It is not released by an operation that comes to nothing. -/
theorem fruitless_removal_keeps :
    let s' := (outlived.step (.writer (.removeCode 32 none))).2
    outlived.writer = true ∧ outlived.anyPin = false ∧ s'.index.sealedEpoch = some 0 ∧
      s'.index.code.hasSealed = true ∧ s'.index.code.parkedEntries.length = 1 := by
  decide +kernel

end Session

end JitIndex
