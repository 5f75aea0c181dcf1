import JitIndex.Frame.Recorder
import JitIndex.Proofs.Frame.Decoding
import Mathlib.Data.List.Induction
import Mathlib.Data.List.Sort

/-!
# Recording and decoding agree

All that ever happens to a recorder is that a descriptor is opened, behind all
the others, and that the innermost open one is closed. What these two steps
keep (`Kept`) is kept by merge points, by an inheritance, and when a recording
is finished.

- `Shaped`: the open descriptors are nested, and a closed one leads past
  itself and past nothing that is open.
- `UpTo`: reports came in order, so starts are in order, and what a closed
  descriptor leads past stops no later than it does.
- `framesLive`: the frames known to be open at an offset. Whatever happens at
  later offsets makes no difference to them, which is why a table that is
  finished later still shows at every offset what was open there
  (`framesAt_finish`).
-/

namespace JitIndex

namespace FrameRecorder

/-! ## One step at a time -/

theorem closeInnermost_nil {r : FrameRecorder} (h : r.openRanks = []) (count pos : Nat) :
    r.closeInnermost count pos = r := by
  obtain ⟨descriptors, openRanks, depth⟩ := r
  obtain rfl : openRanks = [] := h
  simp [closeInnermost]

theorem closeInnermost_zero (r : FrameRecorder) (pos : Nat) : r.closeInnermost 0 pos = r := rfl

/-- Many descriptors are closed one after another. -/
theorem closeInnermost_succ {r : FrameRecorder} {rank : Nat} {ranks : List Nat}
    (h : r.openRanks = rank :: ranks) (count pos : Nat) :
    r.closeInnermost (count + 1) pos = (r.closeInnermost 1 pos).closeInnermost count pos := by
  simp [closeInnermost, h]

section

variable {r : FrameRecorder} {rank : Nat} {ranks : List Nat} (h : r.openRanks = rank :: ranks)
  (pos : Nat)
include h

theorem closeOne_openRanks : (r.closeInnermost 1 pos).openRanks = ranks := by
  simp [closeInnermost, h]

theorem closeOne_size : (r.closeInnermost 1 pos).descriptors.size = r.descriptors.size := by
  simp [closeInnermost, h]

theorem closeOne_getElem? (i : Nat) :
    (r.closeInnermost 1 pos).descriptors[i]? =
      if rank = i then r.descriptors[i]?.map (·.close pos r.descriptors.size)
      else r.descriptors[i]? := by
  simp only [closeInnermost, h, List.take_succ_cons, List.take_zero, List.foldl_cons,
    List.foldl_nil]
  exact Array.getElem?_modify

/-- A descriptor that is closed keeps its frame and its start. -/
theorem closeOne_descriptor {i : Nat} {d : Descriptor}
    (hd : (r.closeInnermost 1 pos).descriptors[i]? = some d) :
    ∃ e, r.descriptors[i]? = some e ∧ e.frame = d.frame ∧ e.start = d.start ∧
      (rank ≠ i → e = d) ∧ (rank = i → d = e.close pos r.descriptors.size) := by
  rw [closeOne_getElem? h] at hd
  split at hd
  · obtain ⟨e, he, rfl⟩ := Option.map_eq_some_iff.mp hd
    exact ⟨e, he, rfl, rfl, fun hne => absurd (by assumption) hne, fun _ => rfl⟩
  · exact ⟨d, hd, rfl, rfl, fun _ => rfl, fun heq => absurd heq (by assumption)⟩

end

theorem openFrame_getElem? (r : FrameRecorder) (frame : FrameId) (pos i : Nat) :
    (r.openFrame frame pos).descriptors[i]? =
      if i = r.descriptors.size then some (.opened frame pos) else r.descriptors[i]? :=
  Array.getElem?_push

theorem openFrame_size (r : FrameRecorder) (frame : FrameId) (pos : Nat) :
    (r.openFrame frame pos).descriptors.size = r.descriptors.size + 1 := Array.size_push _

/-- What openings and closings at an offset keep. -/
structure Kept (pos : Nat) (P : FrameRecorder → Prop) : Prop where
  opens : ∀ {r} frame, P r → P (r.openFrame frame pos)
  closes : ∀ {r rank ranks}, r.openRanks = rank :: ranks → P r → P (r.closeInnermost 1 pos)
  depth : ∀ {r} depth, P r → P { r with depth }

namespace Kept

variable {pos : Nat} {P : FrameRecorder → Prop} (hk : Kept pos P)
include hk

theorem closeInnermost (count : Nat) {r : FrameRecorder} (h : P r) :
    P (r.closeInnermost count pos) := by
  induction count generalizing r with
  | zero => exact closeInnermost_zero r pos ▸ h
  | succ count ih =>
      cases hopen : r.openRanks with
      | nil => exact (closeInnermost_nil hopen _ pos).symm ▸ h
      | cons rank ranks =>
          rw [closeInnermost_succ hopen]
          exact ih (hk.closes hopen h)

theorem merge {r : FrameRecorder} (h : P r) (depth : Nat) (frame : FrameId) :
    P (r.merge depth frame pos) := by
  unfold FrameRecorder.merge
  split
  · exact h
  · refine hk.depth _ ?_
    split
    · split
      · exact hk.closeInnermost _ h
      · exact hk.opens frame h
    · exact hk.opens frame h

theorem closeAll {r : FrameRecorder} (h : P r) : P (r.closeAll pos) := hk.closeInnermost _ h

end Kept

/-- What a block inherits is opened at its start. -/
theorem Kept.inherit {P : FrameRecorder → Prop} (hk : Kept 0 P) {r : FrameRecorder} (h : P r)
    (frames : List FrameId) : P (r.inherit frames) := by
  refine hk.depth _ ?_
  induction frames generalizing r with
  | nil => exact h
  | cons frame frames ih => exact ih (hk.opens frame h)

/-! ## Nesting -/

/-- The open descriptors are nested, the innermost of them opened last, and a closed one leads past
itself and past nothing that is open. -/
structure Shaped (r : FrameRecorder) : Prop where
  ranks : r.openRanks.Pairwise (· > ·)
  inRange : ∀ rank ∈ r.openRanks, rank < r.descriptors.size
  closed : ∀ i d, r.descriptors[i]? = some d → i ∉ r.openRanks →
    ∃ j, d.skip = j * descriptorWords ∧ i < j ∧ j ≤ r.descriptors.size ∧
      ∀ k, i < k → k < j → k ∉ r.openRanks

theorem Shaped.empty : Shaped .empty :=
  ⟨.nil, fun _ h => absurd h List.not_mem_nil,
   fun _ _ h => absurd h (by simp [FrameRecorder.empty])⟩

/-- Everything behind the innermost open descriptor is closed. -/
theorem Shaped.closed_behind {r : FrameRecorder} (h : Shaped r) {rank : Nat} {ranks : List Nat}
    (hopen : r.openRanks = rank :: ranks) {k : Nat} (hk : rank < k) : k ∉ r.openRanks := by
  have hranks := h.ranks
  rw [hopen] at hranks ⊢
  intro hmem
  rcases List.mem_cons.mp hmem with rfl | hmem
  · exact Nat.lt_irrefl _ hk
  · exact Nat.lt_asymm hk ((List.pairwise_cons.mp hranks).1 k hmem)

theorem Shaped.kept (pos : Nat) : Kept pos Shaped where
  opens {r} frame h := by
    have hsize := r.openFrame_size frame pos
    refine ⟨List.pairwise_cons.mpr ⟨h.inRange, h.ranks⟩, fun rank hrank => ?_,
      fun i d hd hi => ?_⟩
    · rw [hsize]
      rcases List.mem_cons.mp hrank with rfl | hrank
      · exact Nat.lt_succ_self _
      · exact Nat.lt_succ_of_lt (h.inRange rank hrank)
    · obtain ⟨hne, hi⟩ := not_or.mp fun hmem => hi (List.mem_cons.mpr hmem)
      rw [openFrame_getElem?, if_neg hne] at hd
      obtain ⟨j, hskip, hij, hj, hinner⟩ := h.closed i d hd hi
      refine ⟨j, hskip, hij, by omega, fun k hik hkj hmem => ?_⟩
      rcases List.mem_cons.mp hmem with rfl | hmem
      · exact Nat.not_lt_of_le hj hkj
      · exact hinner k hik hkj hmem
  closes {r rank ranks} hopen h := by
    have hsub : ∀ k, k ∉ r.openRanks → k ∉ ranks := fun k hk hmem =>
      hk (hopen ▸ List.mem_cons_of_mem _ hmem)
    have hranks := h.ranks
    rw [hopen] at hranks
    refine ⟨?_, fun k hk => ?_, fun i d hd hi => ?_⟩
    · rw [closeOne_openRanks hopen]
      exact hranks.tail
    · rw [closeOne_openRanks hopen] at hk
      rw [closeOne_size hopen]
      exact h.inRange k (hopen ▸ List.mem_cons_of_mem _ hk)
    · rw [closeOne_openRanks hopen] at hi ⊢
      rw [closeOne_size hopen]
      obtain ⟨e, he, -, -, hother, hself⟩ := closeOne_descriptor hopen pos hd
      by_cases hrank : rank = i
      · rw [hself hrank]
        subst hrank
        refine ⟨r.descriptors.size, rfl, h.inRange rank (hopen ▸ List.mem_cons_self ..),
          Nat.le_refl _, fun k hk _ => hsub k (h.closed_behind hopen hk)⟩
      · obtain rfl := hother hrank
        have hi' : i ∉ r.openRanks := by
          rw [hopen, List.mem_cons, not_or]
          exact ⟨Ne.symm hrank, hi⟩
        obtain ⟨j, hskip, hij, hj, hinner⟩ := h.closed i e he hi'
        exact ⟨j, hskip, hij, hj, fun k hik hkj => hsub k (hinner k hik hkj)⟩
  depth _ h := ⟨h.ranks, h.inRange, h.closed⟩

/-! ## Reports in order -/

/-- All reports so far were about offsets up to `pos`, and they came in order. -/
structure UpTo (r : FrameRecorder) (pos : Nat) : Prop where
  started : ∀ (i : Nat) (d : Descriptor), r.descriptors[i]? = some d → d.start ≤ pos
  starts : ∀ (i k : Nat) (d e : Descriptor), i < k → r.descriptors[i]? = some d →
    r.descriptors[k]? = some e → d.start ≤ e.start
  stopped : ∀ (i : Nat) (d : Descriptor), r.descriptors[i]? = some d → i ∉ r.openRanks →
    d.stop ≤ pos
  nested : ∀ (i : Nat) (d : Descriptor), r.descriptors[i]? = some d → i ∉ r.openRanks →
    ∀ (k : Nat) (e : Descriptor), i < k → k * descriptorWords < d.skip →
      r.descriptors[k]? = some e → e.stop ≤ d.stop

theorem UpTo.empty : UpTo .empty 0 := by
  constructor <;> simp [FrameRecorder.empty]

theorem UpTo.mono {r : FrameRecorder} {pos pos' : Nat} (h : UpTo r pos) (hle : pos ≤ pos') :
    UpTo r pos' :=
  ⟨fun i d hd => Nat.le_trans (h.started i d hd) hle, h.starts,
   fun i d hd hi => Nat.le_trans (h.stopped i d hd hi) hle, h.nested⟩

/-- What a closed descriptor leads past was closed before. -/
theorem Shaped.closed_inside {r : FrameRecorder} (h : Shaped r) {i k : Nat} {d : Descriptor}
    (hd : r.descriptors[i]? = some d) (hi : i ∉ r.openRanks) (hik : i < k)
    (hk : k * descriptorWords < d.skip) : k < r.descriptors.size ∧ k ∉ r.openRanks := by
  obtain ⟨j, hskip, -, hj, hinner⟩ := h.closed i d hd hi
  rw [hskip] at hk
  have hkj : k < j := Nat.lt_of_mul_lt_mul_right hk
  exact ⟨Nat.lt_of_lt_of_le hkj hj, hinner k hik hkj⟩

theorem UpTo.kept (pos : Nat) : Kept pos fun r => Shaped r ∧ UpTo r pos where
  opens {r} frame h := by
    obtain ⟨hs, ht⟩ := h
    refine ⟨(Shaped.kept pos).opens frame hs, fun i d hd => ?_, fun i k d e hik hd he => ?_,
      fun i d hd hi => ?_, fun i d hd hi k e hik hk he => ?_⟩
    · rw [openFrame_getElem?] at hd
      split at hd
      · obtain rfl := Option.some.inj hd
        exact Nat.le_refl _
      · exact ht.started i d hd
    · have hi : i ≠ r.descriptors.size := by
        have hlt := (Array.getElem?_eq_some_iff.mp he).1
        rw [openFrame_size] at hlt
        omega
      rw [openFrame_getElem?, if_neg hi] at hd
      rw [openFrame_getElem?] at he
      split at he
      · obtain rfl := Option.some.inj he
        exact ht.started i d hd
      · exact ht.starts i k d e hik hd he
    · obtain ⟨hne, hi⟩ := not_or.mp fun hmem => hi (List.mem_cons.mpr hmem)
      rw [openFrame_getElem?, if_neg hne] at hd
      exact ht.stopped i d hd hi
    · obtain ⟨hne, hi⟩ := not_or.mp fun hmem => hi (List.mem_cons.mpr hmem)
      rw [openFrame_getElem?, if_neg hne] at hd
      have hin := (hs.closed_inside hd hi hik hk).1
      rw [openFrame_getElem?, if_neg (Nat.ne_of_lt hin)] at he
      exact ht.nested i d hd hi k e hik hk he
  closes {r rank ranks} hopen h := by
    obtain ⟨hs, ht⟩ := h
    have hclosed : ∀ {i : Nat}, rank ≠ i → i ∉ ranks → i ∉ r.openRanks := fun hne hi => by
      rw [hopen, List.mem_cons, not_or]
      exact ⟨Ne.symm hne, hi⟩
    refine ⟨(Shaped.kept pos).closes hopen hs, fun i d hd => ?_, fun i k d e hik hd he => ?_,
      fun i d hd hi => ?_, fun i d hd hi k e hik hk he => ?_⟩
    · obtain ⟨d', hd', -, hstart, -⟩ := closeOne_descriptor hopen pos hd
      exact hstart ▸ ht.started i d' hd'
    · obtain ⟨d', hd', -, hstart, -⟩ := closeOne_descriptor hopen pos hd
      obtain ⟨e', he', -, hstart', -⟩ := closeOne_descriptor hopen pos he
      exact hstart ▸ hstart' ▸ ht.starts i k d' e' hik hd' he'
    · rw [closeOne_openRanks hopen] at hi
      obtain ⟨d', hd', -, -, hother, hself⟩ := closeOne_descriptor hopen pos hd
      by_cases hrank : rank = i
      · rw [hself hrank]
        exact Nat.le_refl pos
      · obtain rfl := hother hrank
        exact ht.stopped i d' hd' (hclosed hrank hi)
    · rw [closeOne_openRanks hopen] at hi
      obtain ⟨d', hd', -, -, hother, hself⟩ := closeOne_descriptor hopen pos hd
      obtain ⟨e', he', -, -, hother', -⟩ := closeOne_descriptor hopen pos he
      by_cases hrank : rank = i
      · -- all that comes behind it stopped before
        subst hrank
        obtain rfl := hother' (Nat.ne_of_lt hik)
        rw [hself rfl]
        exact ht.stopped k e' he' (hs.closed_behind hopen hik)
      · obtain rfl := hother hrank
        have hinside := hs.closed_inside hd' (hclosed hrank hi) hik hk
        have hne : rank ≠ k := fun heq => hinside.2 (hopen ▸ heq ▸ List.mem_cons_self ..)
        obtain rfl := hother' hne
        exact ht.nested i d' hd' (hclosed hrank hi) k e' hik hk he'
  depth _ h := ⟨(Shaped.kept pos).depth _ h.1, h.2.started, h.2.starts, h.2.stopped, h.2.nested⟩

/-! ## What is open at an offset -/

/-- The frames of descriptors, by their ranks. -/
def framesOf (r : FrameRecorder) (ranks : List Nat) : List FrameId :=
  ranks.filterMap fun rank => r.descriptors[rank]?.map (·.frame)

/-- The frames of the open descriptors, the outermost first. -/
def openFrames (r : FrameRecorder) : List FrameId := r.framesOf r.openRanks.reverse

/-- Whether a descriptor that has started at an offset has not stopped there, as far as is known. -/
def livesAt (r : FrameRecorder) (rel rank : Nat) : Bool :=
  r.descriptors[rank]?.any fun d => d.start ≤ rel && (decide (rank ∈ r.openRanks) || rel < d.stop)

def ranksLive (r : FrameRecorder) (rel : Nat) : List Nat :=
  (List.range r.descriptors.size).filter (r.livesAt rel)

/-- The frames that are known to be open at an offset, the outermost first. -/
def framesLive (r : FrameRecorder) (rel : Nat) : List FrameId := r.framesOf (r.ranksLive rel)

theorem framesOf_congr {r r' : FrameRecorder} {ranks : List Nat}
    (h : ∀ rank ∈ ranks, r'.descriptors[rank]?.map (·.frame) = r.descriptors[rank]?.map (·.frame)) :
    r'.framesOf ranks = r.framesOf ranks := List.filterMap_congr h

/-- What happens at later offsets does not change what is open at an offset. -/
theorem framesLive_kept {rel pos : Nat} (hlt : rel < pos) (fs : List FrameId) :
    Kept pos fun r => r.framesLive rel = fs where
  opens {r} frame h := by
    have hold : ∀ i ∈ List.range r.descriptors.size,
        (r.openFrame frame pos).descriptors[i]? = r.descriptors[i]? := fun i hi => by
      rw [openFrame_getElem?, if_neg (Nat.ne_of_lt (List.mem_range.mp hi))]
    have hranks : (r.openFrame frame pos).ranksLive rel = r.ranksLive rel := by
      unfold ranksLive
      rw [openFrame_size, List.range_succ, List.filter_append]
      have hnew : (r.openFrame frame pos).livesAt rel r.descriptors.size = false := by
        unfold livesAt
        rw [openFrame_getElem?, if_pos rfl]
        simp only [Option.any_some, Descriptor.opened, Nat.not_le_of_lt hlt, decide_false,
          Bool.false_and]
      rw [List.filter_singleton, hnew]
      simp only [cond_false, List.append_nil]
      refine List.filter_congr fun i hi => ?_
      unfold livesAt
      rw [hold i hi]
      have hne : i ≠ r.descriptors.size := Nat.ne_of_lt (List.mem_range.mp hi)
      have hmem : i ∈ (r.openFrame frame pos).openRanks ↔ i ∈ r.openRanks := by
        rw [openFrame, List.mem_cons, or_iff_right hne]
      simp only [hmem]
    unfold framesLive
    rw [hranks, ← h]
    exact framesOf_congr fun i hi => by rw [hold i (List.mem_filter.mp hi).1]
  closes {r rank ranks} hopen h := by
    have hranks : (r.closeInnermost 1 pos).ranksLive rel = r.ranksLive rel := by
      unfold ranksLive
      rw [closeOne_size hopen]
      refine List.filter_congr fun i _ => ?_
      unfold livesAt
      rw [closeOne_getElem? hopen, closeOne_openRanks hopen, hopen]
      by_cases hrank : rank = i
      · -- it was open, and it stops later
        subst hrank
        cases r.descriptors[rank]? <;> simp [Descriptor.close, hlt]
      · simp [hrank, Ne.symm hrank]
    unfold framesLive
    rw [hranks, ← h]
    refine framesOf_congr fun i _ => ?_
    rw [closeOne_getElem? hopen]
    split
    · rw [Option.map_map]
      rfl
    · rfl
  depth _ h := h

/-- At the offset reached, and after it, the frames known to be open are the open ones. -/
theorem framesLive_eq_openFrames {r : FrameRecorder} {pos rel : Nat} (hs : Shaped r)
    (ht : UpTo r pos) (hle : pos ≤ rel) : r.framesLive rel = r.openFrames := by
  have hranks : r.ranksLive rel = r.openRanks.reverse := by
    have hsorted : (r.ranksLive rel).Pairwise (· < ·) :=
      List.pairwise_lt_range.sublist List.filter_sublist
    refine hsorted.eq_of_mem_iff (List.pairwise_reverse.mpr hs.ranks) fun i => ?_
    rw [ranksLive, List.mem_filter, List.mem_range, List.mem_reverse, livesAt, Option.any_eq_true]
    constructor
    · rintro ⟨-, d, hd, hlive⟩
      by_contra hi
      have hstop := ht.stopped i d hd hi
      simp only [hi, decide_false, Bool.false_or, Bool.and_eq_true, decide_eq_true_eq] at hlive
      omega
    · intro hi
      have hin := hs.inRange i hi
      refine ⟨hin, _, Array.getElem?_eq_getElem hin, ?_⟩
      have hstart := ht.started i _ (Array.getElem?_eq_getElem hin)
      simp only [hi, decide_true, Bool.true_or, Bool.and_true, decide_eq_true_eq]
      omega
  rw [framesLive, hranks, openFrames]

/-- To go through a list by rank is to go through it. -/
theorem filterMap_range_eq {α β : Type} (p : α → Bool) (f : α → β) (as : List α) :
    ((List.range as.length).filter fun i => as[i]?.any p).filterMap (fun i => as[i]?.map f) =
      (as.filter p).map f := by
  induction as using List.reverseRecOn with
  | nil => rfl
  | append_singleton as a ih =>
      have hold : ∀ i ∈ List.range as.length, (as ++ [a])[i]? = as[i]? := fun i hi =>
        List.getElem?_append_left (List.mem_range.mp hi)
      have hranks : ((List.range as.length).filter fun i => (as ++ [a])[i]?.any p) =
          (List.range as.length).filter fun i => as[i]?.any p :=
        List.filter_congr fun i hi => by rw [hold i hi]
      rw [List.length_append, List.length_singleton, List.range_succ, List.filter_append, hranks,
        List.filterMap_append, List.filter_append, List.map_append, ← ih]
      congr 1
      · exact List.filterMap_congr fun i hi => by rw [hold i (List.mem_filter.mp hi).1]
      · by_cases ha : p a = true <;> simp [ha]

/-- When all is closed, the frames known to be open are those of the covering descriptors. -/
theorem framesLive_of_closed {r : FrameRecorder} (h : r.openRanks = []) (rel : Nat) :
    r.framesLive rel = (r.descriptors.toList.filter (·.covers rel)).map (·.frame) := by
  have hlive : r.ranksLive rel = (List.range r.descriptors.toList.length).filter fun i =>
      r.descriptors.toList[i]?.any (·.covers rel) := by
    refine List.filter_congr fun i _ => ?_
    simp [livesAt, h, Descriptor.covers]
  rw [← filterMap_range_eq, ← hlive]
  simp only [framesLive, framesOf, Array.getElem?_toList]

/-! ## Recordings -/

/-- A report that code from an offset on belongs to a frame. -/
structure MergePoint where
  depth : Nat
  frame : FrameId
  pos : Nat
deriving DecidableEq

def MergePoint.step (p : MergePoint) : Step := .merge p.depth p.frame p.pos

/-- The recorder after an inheritance, if there is one, and then some reports. -/
def replay (inherited : Option (List FrameId)) (points : List MergePoint) : FrameRecorder :=
  (run .empty (inherited.toList.map .inherit)).run (points.map MergePoint.step)

theorem replay_nil (inherited : Option (List FrameId)) :
    Shaped (replay inherited []) ∧ UpTo (replay inherited []) 0 := by
  cases inherited with
  | none => exact ⟨.empty, .empty⟩
  | some frames => exact (UpTo.kept 0).inherit ⟨.empty, .empty⟩ frames

theorem run_upTo {points : List MergePoint} {r : FrameRecorder} {pos last : Nat}
    (h : Shaped r ∧ UpTo r pos) (hle : pos ≤ last)
    (hordered : points.Pairwise fun p q => p.pos ≤ q.pos) (hfrom : ∀ p ∈ points, pos ≤ p.pos)
    (hto : ∀ p ∈ points, p.pos ≤ last) :
    Shaped (r.run (points.map MergePoint.step)) ∧
      UpTo (r.run (points.map MergePoint.step)) last := by
  induction points generalizing r pos with
  | nil => exact ⟨h.1, h.2.mono hle⟩
  | cons p points ih =>
      obtain ⟨hp, hrest⟩ := List.pairwise_cons.mp hordered
      have hup := h.2.mono (hfrom p (List.mem_cons_self ..))
      exact ih ((UpTo.kept p.pos).merge ⟨h.1, hup⟩ p.depth p.frame) (hto p (List.mem_cons_self ..))
        hrest hp fun q hq => hto q (List.mem_cons_of_mem _ hq)

/-- Reports about later offsets change nothing at an offset. -/
theorem framesLive_run_of_lt {points : List MergePoint} {r : FrameRecorder} {rel : Nat}
    (hlate : ∀ p ∈ points, rel < p.pos) :
    (r.run (points.map MergePoint.step)).framesLive rel = r.framesLive rel := by
  induction points generalizing r with
  | nil => rfl
  | cons p points ih =>
      have hkept := framesLive_kept (hlate p (List.mem_cons_self ..)) (r.framesLive rel)
      have hp : (r.merge p.depth p.frame p.pos).framesLive rel = r.framesLive rel :=
        hkept.merge (r := r) rfl p.depth p.frame
      exact (ih fun q hq => hlate q (List.mem_cons_of_mem _ hq)).trans hp

/-- What is known at the end to be open at an offset is what was open after the last report about an
offset up to there. -/
theorem framesLive_run {points : List MergePoint} {r : FrameRecorder} {pos rel : Nat}
    (h : Shaped r ∧ UpTo r pos) (hle : pos ≤ rel)
    (hordered : points.Pairwise fun p q => p.pos ≤ q.pos) (hfrom : ∀ p ∈ points, pos ≤ p.pos) :
    (r.run (points.map MergePoint.step)).framesLive rel =
      (r.run ((points.filter (·.pos ≤ rel)).map MergePoint.step)).openFrames := by
  induction points generalizing r pos with
  | nil => exact framesLive_eq_openFrames h.1 h.2 hle
  | cons p points ih =>
      obtain ⟨hp, hrest⟩ := List.pairwise_cons.mp hordered
      have hup := h.2.mono (hfrom p (List.mem_cons_self ..))
      by_cases hrel : p.pos ≤ rel
      · rw [List.filter_cons_of_pos (by simpa using hrel)]
        exact ih ((UpTo.kept p.pos).merge ⟨h.1, hup⟩ p.depth p.frame) hrel hrest hp
      · -- this report and all the others are about later offsets
        have hlate : ∀ q ∈ p :: points, rel < q.pos := by
          intro q hq
          rcases List.mem_cons.mp hq with rfl | hq
          · exact Nat.lt_of_not_le hrel
          · exact Nat.lt_of_lt_of_le (Nat.lt_of_not_le hrel) (hp q hq)
        rw [framesLive_run_of_lt hlate, List.filter_eq_nil_iff.mpr]
        · exact framesLive_eq_openFrames h.1 h.2 hle
        · exact fun q hq => by simpa using hlate q hq

/-! ## Tables -/

theorem closeAll_openRanks (r : FrameRecorder) (size : Nat) : (r.closeAll size).openRanks = [] := by
  simp [closeAll, closeInnermost]

theorem nested_of_closed {r : FrameRecorder} {pos : Nat} (hs : Shaped r) (ht : UpTo r pos)
    (h : r.openRanks = []) : Descriptor.Nested r.descriptors.toList where
  starts := by
    rw [List.pairwise_iff_getElem]
    intro i k hi hk hik
    exact ht.starts i k _ _ hik (Array.getElem?_eq_getElem hi) (Array.getElem?_eq_getElem hk)
  skips i d hd := by
    rw [Array.getElem?_toList] at hd
    have hi : i ∉ r.openRanks := h ▸ List.not_mem_nil
    obtain ⟨j, hskip, hij, hj, -⟩ := hs.closed i d hd hi
    refine ⟨j, hskip, hij, hj, fun k e hik hkj he => ?_⟩
    rw [Array.getElem?_toList] at he
    refine ht.nested i d hd hi k e hik ?_ he
    rw [hskip]
    exact Nat.mul_lt_mul_of_pos_right hkj (by decide)

/-- A table that a recorder gives away is made of its descriptors, all of them closed. -/
theorem finish_eq {r : FrameRecorder} {size : Nat} {table : FrameTable}
    (hfinish : r.finish size = .ok table) :
    table = .ofDescriptors (r.closeAll size).descriptors.toList := by
  unfold finish at hfinish
  dsimp only at hfinish
  split at hfinish
  · cases hfinish
  · exact (Except.ok.inj hfinish).symm

/-- Reports came in order, and the block ends at or after the last one: then the table shows at
every offset in the block the frames that were open when the reports had come that far, and none at
any other offset. -/
theorem framesAt_finish (inherited : Option (List FrameId)) (points : List MergePoint) (size : Nat)
    {table : FrameTable} (hordered : points.Pairwise fun p q => p.pos ≤ q.pos)
    (hsize : ∀ p ∈ points, p.pos ≤ size)
    (hfinish : (replay inherited points).finish size = .ok table) (rel : Nat) :
    (FrameWalk.start table rel).collect.1 =
      if rel < size then (replay inherited (points.filter (·.pos ≤ rel))).openFrames else [] := by
  have hrecorded := run_upTo (replay_nil inherited) (Nat.zero_le size) hordered
    (fun _ _ => Nat.zero_le _) hsize
  have hclosed : Shaped ((replay inherited points).closeAll size) ∧
      UpTo ((replay inherited points).closeAll size) size := (UpTo.kept size).closeAll hrecorded
  have hnone := (replay inherited points).closeAll_openRanks size
  obtain rfl := finish_eq hfinish
  have hlist := FrameTable.framesFrom_eq (nested_of_closed hclosed.1 hclosed.2 hnone) rel 0
  rw [Nat.zero_mul, List.drop_zero, ← framesLive_of_closed hnone] at hlist
  refine (FrameWalk.collect_eq _).trans (hlist.trans ?_)
  split
  · rename_i hlt
    have hlive := (framesLive_kept hlt ((replay inherited points).framesLive rel)).closeAll rfl
    exact hlive.trans (framesLive_run (replay_nil inherited) (Nat.zero_le rel) hordered
      fun _ _ => Nat.zero_le _)
  · rename_i hge
    rw [framesLive_eq_openFrames hclosed.1 hclosed.2 (Nat.le_of_not_lt hge), openFrames, hnone]
    rfl

/-- A block that goes on in a frame it inherited, with another one inlined for a while. -/
theorem framesAt_finish_inlined :
    (FrameWalk.start ⟨#[9, 0, 40, 8, 5, 10, 30, 8]⟩ 15).collect.1 = [⟨9⟩, ⟨5⟩] :=
  framesAt_finish (some [⟨9⟩]) [⟨1, ⟨5⟩, 10⟩, ⟨0, ⟨9⟩, 30⟩] 40 (by decide) (by decide)
    (by cbv) 15

end FrameRecorder

end JitIndex
