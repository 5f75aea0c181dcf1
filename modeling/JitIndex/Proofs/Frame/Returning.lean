import JitIndex.Proofs.Frame.Recording
import Mathlib.Logic.Function.Basic

/-!
# Coming back up

A merge point further out closes as many descriptors as the depth falls by. It
does not look at the depths they were opened at. Those are known here, from the
whole history (`openedAt`), and they are ordered: a descriptor further in was
opened at a greater depth, and none at a greater depth than the one reached
(`Stacked`).

So no more than one descriptor was opened at each depth, and as many as the
depth falls by are enough to close all that were opened further in. They may be
too many. Where a depth on the way was skipped, or its merge point was for
frame 0, there is no descriptor for it, and one is closed in its stead that was
opened no further in than where the emitter has come back to
(`return_closes`).
-/

namespace JitIndex

/-! ## Values that fall along a list -/

section

variable {α : Type} {f : α → Nat} {xs : List α}

/-- Values that fall lose at least one at each step. -/
theorem add_le_of_mem_drop {last n : Nat} {x : α} (h : xs.Pairwise fun x y => f y < f x)
    (hle : ∀ x ∈ xs, f x ≤ last) (hx : x ∈ xs.drop n) : f x + n ≤ last := by
  induction n generalizing xs last with
  | zero => exact hle x hx
  | succ n ih =>
      cases xs with
      | nil => exact absurd hx List.not_mem_nil
      | cons y ys =>
          obtain ⟨hy, hys⟩ := List.pairwise_cons.mp h
          have hlast := hle y (List.mem_cons_self ..)
          have hrest : f x + n ≤ last - 1 := ih hys (fun z hz => by have := hy z hz; omega) hx
          have hlt := hy x (List.mem_of_mem_drop hx)
          omega

/-- A greatest value fills what is left of a range above `d` exactly if the others fill the rest. -/
theorem forall_exists_cons_iff {d n : Nat} {x : α} (hx : ∀ y ∈ xs, f y < f x) (hd : d < f x)
    (htop : f x ≤ d + (n + 1)) :
    (∀ t, d < t → t ≤ d + (n + 1) → ∃ y ∈ x :: xs, f y = t) ↔
      ∀ t, d < t → t ≤ d + n → ∃ y ∈ xs, f y = t := by
  constructor
  · intro hall t ht ht'
    have hfx : f x = d + (n + 1) := by
      obtain ⟨z, hz, hfz⟩ := hall (d + (n + 1)) (by omega) (Nat.le_refl _)
      rcases List.mem_cons.mp hz with rfl | hz
      · exact hfz
      · have := hx z hz
        omega
    obtain ⟨y, hy, hfy⟩ := hall t ht (by omega)
    rcases List.mem_cons.mp hy with rfl | hy
    · omega
    · exact ⟨y, hy, hfy⟩
  · intro hall t ht ht'
    by_cases hrest : t ≤ d + n
    · obtain ⟨y, hy, hfy⟩ := hall t ht hrest
      exact ⟨y, List.mem_cons_of_mem _ hy, hfy⟩
    · -- it is above the one before it, and that is as great as can be
      refine ⟨x, List.mem_cons_self .., ?_⟩
      rcases Nat.eq_zero_or_pos n with rfl | hn
      · omega
      · obtain ⟨y, hy, hfy⟩ := hall (d + n) (by omega) (Nat.le_refl _)
        have := hx y hy
        omega

/-- Of values that fall and exceed `d` by at most `n`, the first `n` include none up to `d` exactly
when none between is missing, or when there is none up to `d`. -/
theorem forall_mem_drop_iff {d n : Nat} (h : xs.Pairwise fun x y => f y < f x)
    (hle : ∀ x ∈ xs, f x ≤ d + n) :
    (∀ x ∈ xs, f x ≤ d → x ∈ xs.drop n) ↔
      (∀ t, d < t → t ≤ d + n → ∃ x ∈ xs, f x = t) ∨ ∀ x ∈ xs, d < f x := by
  induction n generalizing xs with
  | zero => exact ⟨fun _ => .inl fun t ht ht' => by omega, fun _ x hx _ => hx⟩
  | succ n ih =>
      cases xs with
      | nil => simp
      | cons x xs =>
          obtain ⟨hx, hxs⟩ := List.pairwise_cons.mp h
          have htop := hle x (List.mem_cons_self ..)
          rw [List.drop_succ_cons]
          by_cases hd : d < f x
          · -- the first one is out of the way, on both sides
            rw [forall_exists_cons_iff hx hd htop, List.forall_mem_cons, List.forall_mem_cons,
              and_iff_right hd, and_iff_right fun hle => absurd hd (Nat.not_lt_of_le hle)]
            exact ih hxs fun y hy => by have := hx y hy; omega
          · -- the first one would have to stay, and there is none for the greatest value
            refine iff_of_false (fun hkept => ?_) ?_
            · have hself := hx x (List.mem_of_mem_drop
                (hkept x (List.mem_cons_self ..) (Nat.le_of_not_lt hd)))
              exact Nat.lt_irrefl _ hself
            · rintro (hall | hnone)
              · obtain ⟨y, hy, hfy⟩ := hall (d + (n + 1)) (by omega) (Nat.le_refl _)
                rcases List.mem_cons.mp hy with rfl | hy
                · omega
                · have := hx y hy
                  omega
              · exact hd (hnone x (List.mem_cons_self ..))

theorem mem_take_iff_not_mem_drop (h : xs.Nodup) (n : Nat) (x : α) :
    x ∈ xs.take n ↔ x ∈ xs ∧ x ∉ xs.drop n := by
  refine ⟨fun hx => ⟨List.mem_of_mem_take hx, fun hdrop => ?_⟩, fun ⟨hx, hdrop⟩ => ?_⟩
  · exact List.disjoint_take_drop h (Nat.le_refl n) hx hdrop
  · rw [← List.take_append_drop n xs] at hx
    exact (List.mem_append.mp hx).resolve_right hdrop

end

namespace FrameRecorder

/-! ## What a merge point does -/

/-- A merge point changes nothing, comes back up, or goes deeper. -/
theorem merge_cases (r : FrameRecorder) (depth : Nat) (frame : FrameId) (pos : Nat) :
    r.merge depth frame pos = r ∨
    (∃ last, r.depth = some last ∧ depth < last ∧
      r.merge depth frame pos =
        { r.closeInnermost (last - depth) pos with depth := some depth }) ∨
    ((∀ last, r.depth = some last → last < depth) ∧
      r.merge depth frame pos = { r.openFrame frame pos with depth := some depth }) := by
  unfold merge
  split
  · exact .inl rfl
  · rename_i hcounts
    obtain ⟨hmoves, -⟩ := not_or.mp hcounts
    cases hlast : r.depth with
    | none => exact .inr (.inr ⟨fun _ h => (by cases h), rfl⟩)
    | some last =>
        rw [hlast] at hmoves
        by_cases hback : depth < last
        · exact .inr (.inl ⟨last, rfl, hback, by simp only [if_pos hback]⟩)
        · refine .inr (.inr ⟨fun _ h => ?_, by simp only [if_neg hback]⟩)
          obtain rfl := Option.some.inj h
          have hne : last ≠ depth := fun heq => hmoves (congrArg some heq)
          omega

theorem merge_back {r : FrameRecorder} {depth last : Nat} {frame : FrameId}
    (hframe : frame.raw ≠ 0) (hlast : r.depth = some last) (hback : depth < last) (pos : Nat) :
    r.merge depth frame pos = { r.closeInnermost (last - depth) pos with depth := some depth } := by
  have hcounts : ¬(some last = some depth ∨ frame.raw = 0) := by
    rintro (hsame | hzero)
    · exact absurd (Option.some.inj hsame) (Nat.ne_of_gt hback)
    · exact hframe hzero
  unfold merge
  rw [hlast, if_neg hcounts]
  simp only [if_pos hback]

theorem closeInnermost_size (r : FrameRecorder) (count pos : Nat) :
    (r.closeInnermost count pos).descriptors.size = r.descriptors.size := by
  induction count generalizing r with
  | zero => rfl
  | succ count ih =>
      cases hopen : r.openRanks with
      | nil => rw [closeInnermost_nil hopen]
      | cons rank ranks => rw [closeInnermost_succ hopen, ih, closeOne_size hopen]

/-- The descriptors that are closed are the innermost open ones. -/
theorem closeInnermost_getElem? (r : FrameRecorder) (count pos i : Nat) :
    (r.closeInnermost count pos).descriptors[i]? =
      if i ∈ r.openRanks.take count then r.descriptors[i]?.map (·.close pos r.descriptors.size)
      else r.descriptors[i]? := by
  induction count generalizing r with
  | zero => rw [List.take_zero, if_neg List.not_mem_nil, closeInnermost_zero]
  | succ count ih =>
      cases hopen : r.openRanks with
      | nil => rw [closeInnermost_nil hopen, List.take_nil, if_neg List.not_mem_nil]
      | cons rank ranks =>
          rw [closeInnermost_succ hopen, ih, closeOne_openRanks hopen, closeOne_size hopen,
            closeOne_getElem? hopen, List.take_succ_cons]
          by_cases hrank : rank = i
          · -- to close it once more there would make no difference
            subst hrank
            cases r.descriptors[rank]? <;> simp [Descriptor.close]
          · simp only [if_neg hrank, List.mem_cons, Ne.symm hrank, false_or]

/-! ## The depths of the descriptors -/

/-- The depth that each descriptor was opened at, by rank, after some more reports. -/
def openedFrom (r : FrameRecorder) (depthOf : Nat → Nat) : List MergePoint → Nat → Nat
  | [] => depthOf
  | p :: points =>
    let r' := r.merge p.depth p.frame p.pos
    r'.openedFrom
      (if r.descriptors.size < r'.descriptors.size then
        Function.update depthOf r.descriptors.size p.depth
      else depthOf)
      points

/-- The depth that each descriptor was opened at: that of the merge point, or the place among the
frames that were inherited. -/
def openedAt (inherited : Option (List FrameId)) (points : List MergePoint) : Nat → Nat :=
  (replay inherited []).openedFrom id points

/-- The open descriptors were opened at falling depths, from the innermost outwards, and at none
greater than the depth reached. -/
structure Stacked (r : FrameRecorder) (depthOf : Nat → Nat) : Prop where
  falling : r.openRanks.Pairwise fun rank outer => depthOf outer < depthOf rank
  reached : ∀ rank ∈ r.openRanks, ∃ last, r.depth = some last ∧ depthOf rank ≤ last

theorem Stacked.le {r : FrameRecorder} {depthOf : Nat → Nat} {last : Nat} (h : Stacked r depthOf)
    (hlast : r.depth = some last) : ∀ rank ∈ r.openRanks, depthOf rank ≤ last := by
  intro rank hrank
  obtain ⟨reached, hreached, hle⟩ := h.reached rank hrank
  obtain rfl := Option.some.inj (hlast.symm.trans hreached)
  exact hle

theorem Stacked.merge {r : FrameRecorder} {depthOf : Nat → Nat} (h : Stacked r depthOf)
    (hs : Shaped r) (depth : Nat) (frame : FrameId) (pos : Nat) :
    Stacked (r.merge depth frame pos)
      (if r.descriptors.size < (r.merge depth frame pos).descriptors.size then
        Function.update depthOf r.descriptors.size depth
      else depthOf) := by
  rcases r.merge_cases depth frame pos with heq | ⟨last, hlast, hback, heq⟩ | ⟨hdeeper, heq⟩
  · rw [heq, if_neg (Nat.lt_irrefl _)]
    exact h
  · rw [heq, if_neg (by rw [closeInnermost_size]; exact Nat.lt_irrefl _)]
    refine ⟨h.falling.sublist (List.drop_sublist ..), fun rank hrank => ⟨depth, rfl, ?_⟩⟩
    have hfell := add_le_of_mem_drop h.falling (h.le hlast) hrank
    omega
  · rw [heq, if_pos (by rw [openFrame_size]; exact Nat.lt_succ_self _)]
    have hold : ∀ rank ∈ r.openRanks,
        Function.update depthOf r.descriptors.size depth rank = depthOf rank ∧
          depthOf rank < depth := fun rank hrank => by
      obtain ⟨last, hlast, hle⟩ := h.reached rank hrank
      exact ⟨Function.update_of_ne (Nat.ne_of_lt (hs.inRange rank hrank)) ..,
        Nat.lt_of_le_of_lt hle (hdeeper last hlast)⟩
    have hnew : Function.update depthOf r.descriptors.size depth r.descriptors.size = depth :=
      Function.update_self ..
    refine ⟨List.pairwise_cons.mpr ⟨fun rank hrank => ?_, ?_⟩, fun rank hrank => ⟨depth, rfl, ?_⟩⟩
    · rw [hnew, (hold rank hrank).1]
      exact (hold rank hrank).2
    · refine h.falling.imp_of_mem fun {rank outer} hrank houter hlt => ?_
      rw [(hold rank hrank).1, (hold outer houter).1]
      exact hlt
    · rcases List.mem_cons.mp hrank with rfl | hrank
      · exact Nat.le_of_eq hnew
      · rw [(hold rank hrank).1]
        exact Nat.le_of_lt (hold rank hrank).2

theorem inherit_size (r : FrameRecorder) (frames : List FrameId) :
    (r.inherit frames).descriptors.size = r.descriptors.size + frames.length := by
  show (frames.foldl (·.openFrame · 0) r).descriptors.size = _
  induction frames generalizing r with
  | nil => rfl
  | cons frame frames ih =>
      rw [List.foldl_cons, ih, openFrame_size, List.length_cons]
      omega

theorem Stacked.inherited (inherited : Option (List FrameId)) :
    Stacked (replay inherited []) id := by
  have hs := (replay_nil inherited).1
  refine ⟨hs.ranks, fun rank hrank => ?_⟩
  have hin := hs.inRange rank hrank
  cases inherited with
  | none => exact absurd hrank List.not_mem_nil
  | some frames =>
      have hsize : (replay (some frames) []).descriptors.size = frames.length :=
        (inherit_size .empty frames).trans (Nat.zero_add _)
      rw [hsize] at hin
      have hsome : frames.isEmpty = false := by
        cases frames with
        | nil => exact absurd hin (Nat.not_lt_zero _)
        | cons frame frames => rfl
      have hdepth : (replay (some frames) []).depth = some (frames.length - 1) := by
        show (if frames.isEmpty then none else some (frames.length - 1)) = _
        rw [hsome]
        rfl
      exact ⟨_, hdepth, Nat.le_sub_one_of_lt hin⟩

theorem Stacked.run {r : FrameRecorder} {depthOf : Nat → Nat} (h : Stacked r depthOf)
    (hs : Shaped r) (points : List MergePoint) :
    Shaped (r.run (points.map MergePoint.step)) ∧
      Stacked (r.run (points.map MergePoint.step)) (r.openedFrom depthOf points) := by
  induction points generalizing r depthOf with
  | nil => exact ⟨hs, h⟩
  | cons p points ih =>
      exact ih (h.merge hs p.depth p.frame p.pos) ((Shaped.kept p.pos).merge hs p.depth p.frame)

/-- One more report. -/
theorem replay_concat (inherited : Option (List FrameId)) (points : List MergePoint)
    (p : MergePoint) : replay inherited (points ++ [p]) =
      (replay inherited points).merge p.depth p.frame p.pos := by
  unfold replay run
  rw [List.map_append, List.foldl_append]
  rfl

/-! ## Returns -/

/-- A merge point further out closes, at its offset, the innermost descriptors, as many as the depth
falls by or all there are. Nothing else happens to any descriptor. All that were opened further in
are among them. The others stay open exactly if a descriptor is open for each depth that is left, or
if there is no other. -/
theorem return_closes (inherited : Option (List FrameId)) (points : List MergePoint)
    (p : MergePoint) {last : Nat} (hframe : p.frame.raw ≠ 0)
    (hlast : (replay inherited points).depth = some last) (hback : p.depth < last) :
    let r := replay inherited points
    let r' := replay inherited (points ++ [p])
    let depthOf := openedAt inherited points
    r'.openRanks = r.openRanks.drop (last - p.depth) ∧
    (∀ rank, r'.descriptors[rank]? =
      if rank ∈ r.openRanks ∧ rank ∉ r'.openRanks then
        r.descriptors[rank]?.map (·.close p.pos r.descriptors.size)
      else r.descriptors[rank]?) ∧
    (∀ rank ∈ r.openRanks, p.depth < depthOf rank → rank ∉ r'.openRanks) ∧
    ((∀ rank ∈ r.openRanks, depthOf rank ≤ p.depth → rank ∈ r'.openRanks) ↔
      (∀ depth, p.depth < depth → depth ≤ last → ∃ rank ∈ r.openRanks, depthOf rank = depth) ∨
      ∀ rank ∈ r.openRanks, p.depth < depthOf rank) := by
  intro r r' depthOf
  obtain ⟨hs, hstacked⟩ : Shaped r ∧ Stacked r depthOf :=
    (Stacked.inherited inherited).run (replay_nil inherited).1 points
  have hmerge : r' = { r.closeInnermost (last - p.depth) p.pos with depth := some p.depth } :=
    (replay_concat inherited points p).trans (merge_back hframe hlast hback p.pos)
  have hopen : r'.openRanks = r.openRanks.drop (last - p.depth) := by rw [hmerge]; rfl
  have hclosed : ∀ rank, rank ∈ r.openRanks.take (last - p.depth) ↔
      rank ∈ r.openRanks ∧ rank ∉ r'.openRanks := by
    rw [hopen]
    exact mem_take_iff_not_mem_drop (hs.ranks.imp Nat.ne_of_gt) (last - p.depth)
  have hle : ∀ rank ∈ r.openRanks, depthOf rank ≤ p.depth + (last - p.depth) := fun rank hrank => by
    have := hstacked.le hlast rank hrank
    omega
  refine ⟨hopen, fun rank => ?_, fun rank hrank hdeep hkept => ?_, ?_⟩
  · rw [hmerge]
    show (r.closeInnermost (last - p.depth) p.pos).descriptors[rank]? = _
    rw [closeInnermost_getElem?]
    exact if_congr ((hclosed rank).trans (by rw [hmerge])) rfl rfl
  · rw [hopen] at hkept
    have hfell := add_le_of_mem_drop hstacked.falling hle hkept
    omega
  · rw [hopen, forall_mem_drop_iff hstacked.falling hle, Nat.add_sub_of_le (Nat.le_of_lt hback)]

/-- A block comes back to the frame it inherited, and that one stays open. -/
theorem return_closes_inlined :
    (replay (some [⟨9⟩]) [⟨1, ⟨5⟩, 10⟩, ⟨0, ⟨9⟩, 30⟩]).openRanks = [0] ∧
    1 ∉ (replay (some [⟨9⟩]) [⟨1, ⟨5⟩, 10⟩, ⟨0, ⟨9⟩, 30⟩]).openRanks :=
  have hreturn := return_closes (some [⟨9⟩]) [⟨1, ⟨5⟩, 10⟩] ⟨0, ⟨9⟩, 30⟩ (by decide) rfl (by decide)
  ⟨hreturn.1, hreturn.2.2.1 1 (by decide) (by decide)⟩

/-- A descriptor may be closed that was opened further out: the emitter goes from depth 0 to depth
3, and when it is back at depth 1 nothing is open. -/
theorem return_closes_outer : ¬ ∀ (inherited : Option (List FrameId)) (points : List MergePoint)
    (p : MergePoint) (last : Nat), p.frame.raw ≠ 0 →
    (replay inherited points).depth = some last → p.depth < last →
    ∀ rank ∈ (replay inherited points).openRanks,
      (rank ∉ (replay inherited (points ++ [p])).openRanks ↔
        p.depth < openedAt inherited points rank) := fun h =>
  have hrank := h none [⟨0, ⟨1⟩, 0⟩, ⟨3, ⟨2⟩, 10⟩] ⟨1, ⟨3⟩, 20⟩ 3 (by decide) rfl (by decide) 0
    (by decide)
  absurd hrank (by decide)

end FrameRecorder

end JitIndex
