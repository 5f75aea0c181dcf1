import JitIndex.Proofs.Frame.Buffering
import JitIndex.Proofs.Frame.Returning

/-!
# Why a recording is refused

A diary is kept of a recording, whatever the reports are and in whatever order:
how each descriptor came to be open, and which descriptors a merge point
closed, at which offset (`diary`).

- The diary accounts for every descriptor (`Told`): it has the frame it was
  opened with, a merge point's is never 0, and it was either closed once, and
  stops where the diary says, or is open still.
- What is open at the end is closed then, at the size of the block. So the
  diary tells which descriptors cannot be decoded (`faulty_iff`), and the first
  of them is the one that is reported (`finish_refuses`).
-/

namespace JitIndex

section

variable {α : Type} [DecidableEq α] {xs : List α}

theorem filter_not_mem_drop (h : xs.Nodup) (n : Nat) :
    xs.filter (fun x => x ∉ xs.drop n) = xs.take n := by
  conv_lhs => arg 2; rw [← List.take_append_drop n xs]
  rw [List.filter_append, List.filter_eq_self.mpr, List.filter_eq_nil_iff.mpr, List.append_nil]
  · exact fun x hx => by simpa using hx
  · exact fun x hx => by simpa using ((mem_take_iff_not_mem_drop h n x).mp hx).2

end

namespace FrameRecorder

/-! ## The diary of a recording -/

/-- How a descriptor came to be open. -/
inductive Origin where
  | inherited (frame : FrameId)
  | reported (frame : FrameId)
deriving DecidableEq

def Origin.frame : Origin → FrameId
  | inherited frame => frame
  | reported frame => frame

/-- A merge point at `pos` closed a descriptor. -/
structure Closing where
  rank : Nat
  pos : Nat
deriving DecidableEq

/-- The descriptors in the order they were opened, and the closings. -/
structure Diary where
  origins : List Origin := []
  closings : List Closing := []
deriving DecidableEq

variable (r : FrameRecorder)

/-- What is opened by a step: all that is inherited, or a descriptor for a merge point. -/
def opened : Step → List Origin
  | .merge depth frame pos =>
    if r.descriptors.size < (r.merge depth frame pos).descriptors.size then [.reported frame]
    else []
  | .inherit frames => frames.map .inherited

/-- What is closed by a step: what was open, and is so no longer. -/
def closed : Step → List Closing
  | .merge depth frame pos =>
    (r.openRanks.filter fun rank => rank ∉ (r.merge depth frame pos).openRanks).map (⟨·, pos⟩)
  | .inherit _ => []

def Diary.note (d : Diary) (step : Step) : Diary :=
  ⟨d.origins ++ r.opened step, d.closings ++ r.closed step⟩

/-- The diary after some more steps. -/
def diaryFrom (r : FrameRecorder) (d : Diary) : List Step → Diary
  | [] => d
  | step :: steps => (r.step step).diaryFrom (d.note r step) steps

def diary (steps : List Step) : Diary := diaryFrom .empty {} steps

/-! ## What the diary tells -/

/-- The diary accounts for every descriptor. -/
structure Told (r : FrameRecorder) (d : Diary) : Prop where
  shaped : Shaped r
  size : d.origins.length = r.descriptors.size
  frames : ∀ i : Nat, r.descriptors[i]?.map Descriptor.frame = d.origins[i]?.map Origin.frame
  reported : ∀ frame, .reported frame ∈ d.origins → frame.raw ≠ 0
  once : (d.closings.map Closing.rank ++ r.openRanks).Perm (List.range r.descriptors.size)
  stops : ∀ c ∈ d.closings, r.descriptors[c.rank]?.map Descriptor.stop = some c.pos

variable {r} {d : Diary} {pos : Nat}

theorem Told.empty : Told .empty {} where
  shaped := .empty
  size := rfl
  frames i := by simp [FrameRecorder.empty]
  reported _ h := absurd h List.not_mem_nil
  once := .refl _
  stops _ h := absurd h List.not_mem_nil

theorem Told.depth (h : Told r d) (depth : Option Nat) : Told { r with depth } d :=
  ⟨(Shaped.kept 0).depth depth h.shaped, h.size, h.frames, h.reported, h.once, h.stops⟩

/-- No descriptor is closed that is still open. -/
theorem Told.not_open (h : Told r d) {c : Closing} (hc : c ∈ d.closings) :
    c.rank ∉ r.openRanks := by
  have hnodup := h.once.nodup_iff.mpr List.nodup_range
  exact List.disjoint_of_nodup_append hnodup (List.mem_map_of_mem hc)

theorem Told.opens (h : Told r d) (o : Origin) (ho : ∀ frame, o = .reported frame → frame.raw ≠ 0)
    (pos : Nat) : Told (r.openFrame o.frame pos) ⟨d.origins ++ [o], d.closings⟩ where
  shaped := (Shaped.kept pos).opens o.frame h.shaped
  size := by rw [List.length_append, h.size, openFrame_size]; rfl
  frames i := by
    rw [openFrame_getElem?, ← h.size, List.getElem?_append]
    split
    · rename_i hi
      rw [hi, if_neg (Nat.lt_irrefl _), Nat.sub_self]
      rfl
    · rename_i hi
      rw [h.frames]
      split
      · rfl
      · rw [List.getElem?_eq_none (by omega), List.getElem?_eq_none (by simp; omega)]
  reported frame hmem := by
    rcases List.mem_append.mp hmem with hmem | hmem
    · exact h.reported frame hmem
    · exact ho frame (List.mem_singleton.mp hmem).symm
  once := by
    rw [openFrame_size, List.range_succ]
    exact (List.perm_middle.trans (h.once.cons _)).trans (List.perm_append_singleton _ _).symm
  stops c hc := by
    have hstop := h.stops c hc
    obtain ⟨e, he, -⟩ := Option.map_eq_some_iff.mp hstop
    have hin := (Array.getElem?_eq_some_iff.mp he).1
    rw [openFrame_getElem?, if_neg (Nat.ne_of_lt hin)]
    exact hstop

theorem Told.closes (h : Told r d) (count pos : Nat) :
    Told (r.closeInnermost count pos)
      ⟨d.origins, d.closings ++ (r.openRanks.take count).map (⟨·, pos⟩)⟩ where
  shaped := (Shaped.kept pos).closeInnermost count h.shaped
  size := by rw [h.size, closeInnermost_size]
  frames i := by
    rw [← h.frames, closeInnermost_getElem?]
    split
    · rw [Option.map_map]
      rfl
    · rfl
  reported := h.reported
  once := by
    have hopen : (r.closeInnermost count pos).openRanks = r.openRanks.drop count := rfl
    have hranks : ((r.openRanks.take count).map (⟨·, pos⟩)).map Closing.rank =
        r.openRanks.take count := by
      rw [List.map_map]
      exact List.map_id _
    rw [closeInnermost_size, hopen, List.map_append, hranks, List.append_assoc,
      List.take_append_drop]
    exact h.once
  stops c hc := by
    rw [closeInnermost_getElem?]
    rcases List.mem_append.mp hc with hold | hnew
    · rw [if_neg fun hmem => h.not_open hold (List.mem_of_mem_take hmem)]
      exact h.stops c hold
    · obtain ⟨rank, hrank, rfl⟩ := List.mem_map.mp hnew
      have hin := h.shaped.inRange rank (List.mem_of_mem_take hrank)
      rw [if_pos hrank, Array.getElem?_eq_getElem hin]
      rfl

/-- What is still open at the end is closed then. -/
theorem Told.closeAll (h : Told r d) (size : Nat) :
    Told (r.closeAll size) ⟨d.origins, d.closings ++ r.openRanks.map (⟨·, size⟩)⟩ := by
  have hclosed := h.closes r.openRanks.length size
  rwa [List.take_length] at hclosed

theorem merge_zero (r : FrameRecorder) (depth : Nat) {frame : FrameId} (h : frame.raw = 0)
    (pos : Nat) : r.merge depth frame pos = r := if_pos (.inr h)

theorem Told.merge (h : Told r d) (depth : Nat) (frame : FrameId) (pos : Nat) :
    Told (r.merge depth frame pos) (d.note r (.merge depth frame pos)) := by
  unfold Diary.note opened closed
  dsimp only
  rcases r.merge_cases depth frame pos with heq | ⟨last, -, -, heq⟩ | ⟨-, heq⟩
  · rw [heq, if_neg (Nat.lt_irrefl _),
      List.filter_eq_nil_iff.mpr fun rank hrank => by simpa using hrank, List.map_nil,
      List.append_nil, List.append_nil]
    exact h
  · have hranks : r.openRanks.Nodup := h.shaped.ranks.imp Nat.ne_of_gt
    have hopen : (r.merge depth frame pos).openRanks = r.openRanks.drop (last - depth) := by
      rw [heq]
      rfl
    rw [hopen, filter_not_mem_drop hranks, heq,
      if_neg (by rw [closeInnermost_size]; exact Nat.lt_irrefl _), List.append_nil]
    exact (h.closes (last - depth) pos).depth _
  · have hgrows : r.descriptors.size < (r.merge depth frame pos).descriptors.size := by
      rw [heq, openFrame_size]
      exact Nat.lt_succ_self _
    have hframe : frame.raw ≠ 0 := fun hzero => by
      rw [merge_zero r depth hzero] at hgrows
      exact Nat.lt_irrefl _ hgrows
    have hkept : r.openRanks.filter (fun rank => rank ∉ (r.merge depth frame pos).openRanks) = [] :=
      List.filter_eq_nil_iff.mpr fun rank hrank => by
        have hstill : rank ∈ (r.merge depth frame pos).openRanks := by
          rw [heq]
          exact List.mem_cons_of_mem _ hrank
        simpa using hstill
    rw [hkept, if_pos hgrows, heq, List.map_nil, List.append_nil]
    refine (h.opens (.reported frame) (fun _ hsame => ?_) pos).depth _
    cases hsame
    exact hframe

theorem Told.inherit (h : Told r d) (frames : List FrameId) :
    Told (r.inherit frames) (d.note r (.inherit frames)) := by
  unfold Diary.note opened closed FrameRecorder.inherit
  dsimp only
  rw [List.append_nil]
  refine Told.depth ?_ _
  induction frames generalizing r d with
  | nil => rwa [List.map_nil, List.append_nil]
  | cons frame frames ih =>
      rw [List.map_cons, List.append_cons]
      exact ih (h.opens (.inherited frame) (fun _ hsame => nomatch hsame) 0)

/-- Whatever is reported, the diary accounts for it. -/
theorem Told.run (h : Told r d) (steps : List Step) : Told (r.run steps) (r.diaryFrom d steps) := by
  induction steps generalizing r d with
  | nil => exact h
  | cons step steps ih =>
      cases step with
      | merge depth frame pos => exact ih (h.merge depth frame pos)
      | inherit frames => exact ih (h.inherit frames)

/-! ## Faults -/

/-- Nobody could decode the descriptor with this rank, in a block of `size` bytes: it was inherited
for frame 0, a merge point closed it at the start of the block, or the block ends there while it is
open. -/
def Diary.Faulty (d : Diary) (r : FrameRecorder) (size rank : Nat) : Prop :=
  d.origins[rank]? = some (.inherited ⟨0⟩) ∨ ⟨rank, 0⟩ ∈ d.closings ∨
    (rank ∈ r.openRanks ∧ size = 0)

theorem closeAll_size (r : FrameRecorder) (size : Nat) :
    (r.closeAll size).descriptors.size = r.descriptors.size := closeInnermost_size ..

theorem Told.skip_ne_zero (h : Told r d) {size rank : Nat} {e : Descriptor}
    (he : (r.closeAll size).descriptors[rank]? = some e) : e.skip ≠ 0 := by
  have hnone : rank ∉ (r.closeAll size).openRanks := by
    rw [closeAll_openRanks]
    exact List.not_mem_nil
  obtain ⟨j, hskip, hlt, -⟩ := (h.closeAll size).shaped.closed rank e he hnone
  rw [hskip, descriptorWords]
  omega

theorem Told.frame_eq_zero_iff (h : Told r d) {size rank : Nat} {e : Descriptor}
    (he : (r.closeAll size).descriptors[rank]? = some e) :
    e.frame.raw = 0 ↔ d.origins[rank]? = some (.inherited ⟨0⟩) := by
  have hframe := (h.closeAll size).frames rank
  rw [he] at hframe
  obtain ⟨o, ho, hsame⟩ := Option.map_eq_some_iff.mp hframe.symm
  rw [ho, ← hsame]
  constructor
  · intro hzero
    cases o with
    | inherited frame =>
        obtain ⟨raw⟩ := frame
        exact congrArg (fun n => some (Origin.inherited ⟨n⟩)) hzero
    | reported frame => exact absurd hzero (h.reported frame (List.mem_of_getElem? ho))
  · intro hinherited
    cases hinherited
    rfl

theorem Told.stop_eq_zero_iff (h : Told r d) {size rank : Nat} {e : Descriptor}
    (he : (r.closeAll size).descriptors[rank]? = some e) :
    e.stop = 0 ↔ ⟨rank, 0⟩ ∈ d.closings ∨ (rank ∈ r.openRanks ∧ size = 0) := by
  have hin : rank < r.descriptors.size :=
    closeAll_size r size ▸ (Array.getElem?_eq_some_iff.mp he).1
  -- its closing is the only one there is
  have hstop : ∀ pos, ⟨rank, pos⟩ ∈ d.closings ∨ (rank ∈ r.openRanks ∧ size = pos) →
      e.stop = pos := fun pos hcloses => by
    have hmem : ⟨rank, pos⟩ ∈ d.closings ++ r.openRanks.map (⟨·, size⟩) := by
      rw [List.mem_append, List.mem_map]
      exact hcloses.imp_right fun ⟨hopen, hsize⟩ => ⟨rank, hopen, hsize ▸ rfl⟩
    have hpos := (h.closeAll size).stops _ hmem
    rw [he] at hpos
    exact Option.some.inj hpos
  refine ⟨fun hzero => ?_, hstop 0⟩
  have hmem := h.once.mem_iff.mpr (List.mem_range.mpr hin)
  rcases List.mem_append.mp hmem with hearlier | hopen
  · obtain ⟨⟨_, pos⟩, hc, rfl⟩ := List.mem_map.mp hearlier
    obtain rfl := (hstop pos (.inl hc)).symm.trans hzero
    exact .inl hc
  · exact .inr ⟨hopen, (hstop size (.inr ⟨hopen, rfl⟩)).symm.trans hzero⟩

/-- The diary tells which descriptors cannot be decoded. -/
theorem Told.faulty_iff (h : Told r d) (size rank : Nat) :
    d.Faulty r size rank ↔
      ∃ e, (r.closeAll size).descriptors[rank]? = some e ∧ e.isUnterminated = true := by
  have hdecodes : ∀ e, (r.closeAll size).descriptors[rank]? = some e →
      (e.isUnterminated = true ↔ d.Faulty r size rank) := fun e he => by
    simp only [Descriptor.isUnterminated, Bool.or_eq_true, beq_iff_eq, h.frame_eq_zero_iff he,
      h.stop_eq_zero_iff he, h.skip_ne_zero he, or_false]
    rfl
  constructor
  · intro hfaulty
    have hin : rank < r.descriptors.size := by
      rcases hfaulty with horigin | hclosing | ⟨hopen, -⟩
      · exact h.size ▸ (List.getElem?_eq_some_iff.mp horigin).1
      · have hmem := h.once.mem_iff.mp (List.mem_append_left _ (List.mem_map_of_mem hclosing))
        exact List.mem_range.mp hmem
      · exact h.shaped.inRange rank hopen
    have he := Array.getElem?_eq_getElem ((closeAll_size r size).symm ▸ hin)
    exact ⟨_, he, (hdecodes _ he).mpr hfaulty⟩
  · rintro ⟨e, he, hunterminated⟩
    exact (hdecodes e he).mp hunterminated

/-- The first descriptor that cannot be decoded is the first that is faulty. -/
theorem Told.findIdx?_eq_some_iff (h : Told r d) (size rank : Nat) :
    (r.closeAll size).descriptors.findIdx? Descriptor.isUnterminated = some rank ↔
      d.Faulty r size rank ∧ ∀ earlier < rank, ¬ d.Faulty r size earlier := by
  simp only [Array.findIdx?_eq_some_iff_getElem, h.faulty_iff, Array.getElem?_eq_some_iff]
  constructor
  · rintro ⟨hin, hself, hbefore⟩
    refine ⟨⟨_, ⟨hin, rfl⟩, hself⟩, ?_⟩
    rintro earlier hlt ⟨e, ⟨hin', rfl⟩, hfaulty⟩
    exact hbefore earlier hlt hfaulty
  · rintro ⟨⟨e, ⟨hin, rfl⟩, hself⟩, hbefore⟩
    exact ⟨hin, hself, fun earlier hlt hfaulty =>
      hbefore earlier hlt ⟨_, ⟨Nat.lt_trans hlt hin, rfl⟩, hfaulty⟩⟩

theorem finish_error_iff (r : FrameRecorder) (size : Nat) (f : Failure) :
    r.finish size = .error f ↔ ∃ rank,
      (r.closeAll size).descriptors.findIdx? Descriptor.isUnterminated = some rank ∧
        f = .unterminated (rank * descriptorWords) := by
  unfold finish
  dsimp only
  cases (r.closeAll size).descriptors.findIdx? Descriptor.isUnterminated with
  | none => exact ⟨nofun, fun ⟨_, h, _⟩ => nomatch h⟩
  | some rank =>
      constructor
      · rintro h
        cases h
        exact ⟨rank, rfl, rfl⟩
      · rintro ⟨_, h, rfl⟩
        cases h
        rfl

/-- Whatever was reported, in whatever order, and whatever the size of the block: each descriptor is
closed once, by a merge point or at the end, and none is left without its skip. The recording is
refused exactly if a descriptor is faulty. The word that is named is the first of that descriptor,
or of the one opened first if there are more. -/
theorem finish_refuses (steps : List Step) (size : Nat) :
    let r := run .empty steps
    let d := diary steps
    d.origins.length = r.descriptors.size ∧
    (d.closings.map Closing.rank ++ r.openRanks).Perm (List.range d.origins.length) ∧
    (∀ e ∈ (r.closeAll size).descriptors, e.skip ≠ 0) ∧
    ((∃ f, r.finish size = .error f) ↔ ∃ rank, d.Faulty r size rank) ∧
    ∀ index, r.finish size = .error (.unterminated index) ↔
      ∃ rank, index = rank * descriptorWords ∧ d.Faulty r size rank ∧
        ∀ earlier < rank, ¬ d.Faulty r size earlier := by
  intro r d
  have htold : Told r d := Told.empty.run steps
  have hfirst := htold.findIdx?_eq_some_iff size
  refine ⟨htold.size, htold.size ▸ htold.once, ?_, ?_, ?_⟩
  · intro e he
    obtain ⟨rank, hrank⟩ := Array.mem_iff_getElem?.mp he
    exact htold.skip_ne_zero hrank
  · simp only [finish_error_iff, hfirst]
    constructor
    · rintro ⟨_, rank, ⟨hfaulty, -⟩, -⟩
      exact ⟨rank, hfaulty⟩
    · intro hex
      classical
      exact ⟨_, Nat.find hex, ⟨Nat.find_spec hex, fun _ => Nat.find_min hex⟩, rfl⟩
  · intro index
    simp only [finish_error_iff, hfirst, Failure.unterminated.injEq]
    constructor
    · rintro ⟨rank, hrank, rfl⟩
      exact ⟨rank, rfl, hrank⟩
    · rintro ⟨rank, rfl, hrank⟩
      exact ⟨rank, hrank, rfl⟩

/-- A frame that was inherited is closed at once, and another one is frame 0. -/
example : diary [.inherit [⟨7⟩, ⟨0⟩, ⟨8⟩], .merge 1 ⟨0⟩ 0, .merge 1 ⟨7⟩ 0, .merge 0 ⟨7⟩ 24] =
    ⟨[.inherited ⟨7⟩, .inherited ⟨0⟩, .inherited ⟨8⟩], [⟨2, 0⟩, ⟨1, 24⟩]⟩ := by decide

end FrameRecorder

end JitIndex
