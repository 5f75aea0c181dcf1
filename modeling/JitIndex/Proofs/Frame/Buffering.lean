import JitIndex.Proofs.Frame.Recording

/-!
# A recorder in memory

In memory a table in the making is one buffer of words. Opening a descriptor
appends four words, two of which are not known yet; closing it sets those two,
where a stack of positions says. `WordRecorder` is a recorder that works on
such a buffer, and it makes a misstep where it would set a word that is not
there, or find words at the end that are no whole descriptor.

Whatever is reported to it, in whatever order, it makes none: at every moment
its buffer holds the descriptors of the `FrameRecorder` that was told the same,
one behind the other, and its stack their open ranks (`WordRecorder.run_laidOut`,
`WordRecorder.finish_laidOut`).

A finished table is well formed, also when the reports came in no order at all
(`FrameRecorder.finish_wellFormed`). It could be decoded, skips lead forward to
the start of a descriptor or to the end, and what an inner descriptor leads past
lies within what the outer one leads past. The last part is `Laminar`, which
openings and closings keep.
-/

namespace JitIndex

/-- A frame table in the making, as a buffer of words. -/
structure WordRecorder where
  words : Array Nat := #[]
  /-- Where the stop offsets of the open descriptors go, the innermost first. -/
  openStops : List Nat := []
  depth : Option Nat := none
deriving DecidableEq

namespace WordRecorder

/-- What can go wrong in a buffer. -/
inductive Misstep where
  /-- A word was to be set that is not there. -/
  | outside (index : Nat)
  /-- Words at the end are no whole descriptor. -/
  | ragged (words : List Nat)
deriving DecidableEq

def setWord (words : Array Nat) (i w : Nat) : Except Misstep (Array Nat) :=
  if i < words.size then .ok (words.setIfInBounds i w) else .error (.outside i)

/-- Appends a descriptor. Its stop offset and its skip word are 0 until it is closed. -/
def openFrame (b : WordRecorder) (frame : FrameId) (pos : Nat) : WordRecorder :=
  let begun := b.words ++ #[frame.raw, pos]
  { b with words := begun ++ #[0, 0], openStops := begun.size :: b.openStops }

/-- Closes the innermost `count` open descriptors at `pos`, or all of them if there are fewer. -/
def closeInnermost (b : WordRecorder) (pos : Nat) : Nat → Except Misstep WordRecorder
  | 0 => return b
  | count + 1 =>
    match b.openStops with
    | [] => return b
    | stop :: rest => do
      let words ← setWord b.words stop pos
      let words ← setWord words (stop + 1) words.size
      closeInnermost { b with words, openStops := rest } pos count

def merge (b : WordRecorder) (depth : Nat) (frame : FrameId) (pos : Nat) :
    Except Misstep WordRecorder :=
  if b.depth = some depth ∨ frame.raw = 0 then return b
  else do
    let moved ←
      match b.depth with
      | some last =>
        if depth < last then b.closeInnermost pos (last - depth) else .ok (b.openFrame frame pos)
      | none => .ok (b.openFrame frame pos)
    return { moved with depth := some depth }

def inherit (b : WordRecorder) (frames : List FrameId) : WordRecorder :=
  let entered := frames.foldl (·.openFrame · 0) b
  { entered with depth := if frames.isEmpty then b.depth else some (frames.length - 1) }

/-- Looks for the first of the descriptors, numbered from `rank` on, that could not be decoded, and
gives its first word. -/
def unterminated? (rank : Nat) : List (List Nat) → Except Misstep (Option Nat)
  | [] => return none
  | [frame, _, stop, skip] :: rest =>
    if frame = 0 ∨ stop = 0 ∨ skip = 0 then return some (rank * descriptorWords)
    else unterminated? (rank + 1) rest
  | chunk :: _ => throw (.ragged chunk)

def finish (b : WordRecorder) (size : Nat) : Except Misstep (Except Failure FrameTable) := do
  let closed ← b.closeInnermost size b.openStops.length
  match ← unterminated? 0 (FrameTable.chunks closed.words.toList) with
  | some index => return .error (.unterminated index)
  | none => return .ok ⟨closed.words⟩

def step (b : WordRecorder) : FrameRecorder.Step → Except Misstep WordRecorder
  | .merge depth frame pos => b.merge depth frame pos
  | .inherit frames => return b.inherit frames

def run (b : WordRecorder) : List FrameRecorder.Step → Except Misstep WordRecorder
  | [] => return b
  | step :: steps => do (← b.step step).run steps

end WordRecorder

/-! ## Descriptors in a buffer -/

namespace FrameTable

theorem chunks_flatMap_words (ds : List Descriptor) :
    chunks (ds.flatMap Descriptor.words) = ds.map Descriptor.words := by
  induction ds with
  | nil => rfl
  | cons d ds ih =>
      show d.words :: chunks (ds.flatMap Descriptor.words) = _
      rw [ih]
      rfl

/-- To set the last two words of a descriptor is to close it. -/
theorem set_flatMap_words {ds : List Descriptor} {rank : Nat} (h : rank < ds.length)
    (pos count : Nat) :
    ((ds.flatMap Descriptor.words).set (rank * descriptorWords + 2) pos).set
        (rank * descriptorWords + 3) (count * descriptorWords) =
      (ds.modify rank (·.close pos count)).flatMap Descriptor.words := by
  have hsplit : ds.flatMap Descriptor.words = (ds.take rank).flatMap Descriptor.words ++
      (ds[rank].words ++ (ds.drop (rank + 1)).flatMap Descriptor.words) := by
    conv_lhs => rw [← List.take_append_drop rank ds, List.drop_eq_getElem_cons h]
    rw [List.flatMap_append, List.flatMap_cons]
  have hlen : ((ds.take rank).flatMap Descriptor.words).length = rank * descriptorWords := by
    rw [length_flatMap_words, List.length_take_of_le (Nat.le_of_lt h)]
  rw [hsplit, List.set_append_right _ _ (by omega), List.set_append_right _ _ (by omega), hlen,
    Nat.add_sub_cancel_left, Nat.add_sub_cancel_left, List.modify_eq_take_cons_drop h,
    List.flatMap_append, List.flatMap_cons]
  rfl

end FrameTable

namespace FrameRecorder

/-- What the memory of a recorder holds. -/
def laidOut (r : FrameRecorder) : WordRecorder where
  words := (FrameTable.ofDescriptors r.descriptors.toList).words
  openStops := r.openRanks.map fun rank => rank * descriptorWords + 2
  depth := r.depth

end FrameRecorder

namespace WordRecorder

open FrameRecorder (Shaped Kept)

variable {r : FrameRecorder}

theorem size_laidOut (r : FrameRecorder) :
    r.laidOut.words.size = r.descriptors.size * descriptorWords :=
  (FrameTable.size_ofDescriptors _).trans (by rw [Array.length_toList])

theorem openFrame_laidOut (r : FrameRecorder) (frame : FrameId) (pos : Nat) :
    r.laidOut.openFrame frame pos = (r.openFrame frame pos).laidOut := by
  have hstop : (r.laidOut.words ++ #[frame.raw, pos]).size =
      r.descriptors.size * descriptorWords + 2 := by
    rw [Array.size_append, size_laidOut]
    rfl
  unfold openFrame
  dsimp only
  rw [hstop]
  simp [FrameRecorder.laidOut, FrameRecorder.openFrame, FrameTable.ofDescriptors, Descriptor.words,
    Descriptor.opened]

/-- The two words of an open descriptor are there to be set. -/
theorem setWords_laidOut {rank : Nat} {ranks : List Nat} (hopen : r.openRanks = rank :: ranks)
    (hin : rank < r.descriptors.size) (pos : Nat) : ∃ words,
      setWord r.laidOut.words (rank * descriptorWords + 2) pos = .ok words ∧
      setWord words (rank * descriptorWords + 2 + 1) words.size =
        .ok (r.closeInnermost 1 pos).laidOut.words := by
  have hsize := size_laidOut r
  have hfits : rank * descriptorWords + 3 < r.laidOut.words.size := by
    rw [hsize]
    simp only [descriptorWords]
    omega
  refine ⟨_, if_pos (by omega), (if_pos (by rw [Array.size_setIfInBounds]; omega)).trans ?_⟩
  rw [Array.size_setIfInBounds, hsize]
  refine congrArg Except.ok (Array.toList_inj.mp ?_)
  simp only [Array.toList_setIfInBounds]
  have hclosed : (r.closeInnermost 1 pos).descriptors.toList =
      r.descriptors.toList.modify rank (·.close pos r.descriptors.size) := by
    simp [FrameRecorder.closeInnermost, hopen, Array.toList_modify]
  show _ = (r.closeInnermost 1 pos).descriptors.toList.flatMap Descriptor.words
  rw [hclosed]
  exact FrameTable.set_flatMap_words (by rwa [Array.length_toList]) pos r.descriptors.size

theorem closeInnermost_laidOut (hs : Shaped r) (count pos : Nat) :
    r.laidOut.closeInnermost pos count = .ok (r.closeInnermost count pos).laidOut := by
  induction count generalizing r with
  | zero => rfl
  | succ count ih =>
      cases hopen : r.openRanks with
      | nil =>
          have hnone : r.laidOut.openStops = [] := congrArg (List.map _) hopen
          rw [FrameRecorder.closeInnermost_nil hopen, closeInnermost, hnone]
          rfl
      | cons rank ranks =>
          have hin : rank < r.descriptors.size := hs.inRange rank (hopen ▸ List.mem_cons_self ..)
          obtain ⟨words, hstop, hskip⟩ := setWords_laidOut hopen hin pos
          have hstops : r.laidOut.openStops = (rank * descriptorWords + 2) ::
              ranks.map fun rank => rank * descriptorWords + 2 := congrArg (List.map _) hopen
          have hnext : (⟨(r.closeInnermost 1 pos).laidOut.words,
              ranks.map fun rank => rank * descriptorWords + 2, r.laidOut.depth⟩ : WordRecorder) =
              (r.closeInnermost 1 pos).laidOut := by
            conv_rhs => unfold FrameRecorder.laidOut
            rw [FrameRecorder.closeOne_openRanks hopen]
            rfl
          rw [FrameRecorder.closeInnermost_succ hopen, closeInnermost, hstops]
          simp only [bind, Except.bind, hstop, hskip, hnext]
          exact ih ((Shaped.kept pos).closes hopen hs)

theorem merge_laidOut (hs : Shaped r) (depth : Nat) (frame : FrameId) (pos : Nat) :
    r.laidOut.merge depth frame pos = .ok (r.merge depth frame pos).laidOut := by
  have hdepth : r.laidOut.depth = r.depth := rfl
  unfold merge FrameRecorder.merge
  rw [hdepth, openFrame_laidOut]
  by_cases hsame : r.depth = some depth ∨ frame.raw = 0
  · rw [if_pos hsame, if_pos hsame]
    rfl
  · rw [if_neg hsame, if_neg hsame]
    cases r.depth with
    | none => rfl
    | some last =>
        by_cases hback : depth < last
        · simp only [if_pos hback, closeInnermost_laidOut hs]
          rfl
        · simp only [if_neg hback]
          rfl

theorem inherit_laidOut (r : FrameRecorder) (frames : List FrameId) :
    r.laidOut.inherit frames = (r.inherit frames).laidOut := by
  have hentered : frames.foldl (·.openFrame · 0) r.laidOut =
      (frames.foldl (·.openFrame · 0) r).laidOut := by
    induction frames generalizing r with
    | nil => rfl
    | cons frame frames ih =>
        rw [List.foldl_cons, List.foldl_cons, openFrame_laidOut, ih]
  unfold inherit FrameRecorder.inherit
  rw [hentered]
  rfl

end WordRecorder

/-! ## Runs -/

namespace FrameRecorder

/-- What openings and closings keep at any offset holds after every run. -/
theorem Kept.run {P : FrameRecorder → Prop} (hk : ∀ pos, Kept pos P) {r : FrameRecorder} (h : P r)
    (steps : List Step) : P (r.run steps) := by
  induction steps generalizing r with
  | nil => exact h
  | cons step steps ih =>
      cases step with
      | merge depth frame pos => exact ih ((hk pos).merge h depth frame)
      | inherit frames => exact ih ((hk 0).inherit h frames)

end FrameRecorder

namespace WordRecorder

open FrameRecorder (Shaped Kept)

variable {r : FrameRecorder}

theorem step_laidOut (hs : Shaped r) (step : FrameRecorder.Step) :
    r.laidOut.step step = .ok (r.step step).laidOut := by
  cases step with
  | merge depth frame pos => exact merge_laidOut hs depth frame pos
  | inherit frames => exact congrArg Except.ok (inherit_laidOut r frames)

theorem run_laidOut (hs : Shaped r) (steps : List FrameRecorder.Step) :
    r.laidOut.run steps = .ok (r.run steps).laidOut := by
  induction steps generalizing r with
  | nil => rfl
  | cons step steps ih =>
      have hs' : Shaped (r.step step) := Kept.run Shaped.kept hs [step]
      rw [run, step_laidOut hs]
      exact ih hs'

theorem unterminated?_words (ds : List Descriptor) (rank : Nat) :
    unterminated? rank (ds.map Descriptor.words) =
      .ok ((ds.findIdx? Descriptor.isUnterminated).map fun i => (rank + i) * descriptorWords) := by
  induction ds generalizing rank with
  | nil => rfl
  | cons d ds ih =>
      have hbad : d.isUnterminated = true ↔ d.frame.raw = 0 ∨ d.stop = 0 ∨ d.skip = 0 := by
        simp [Descriptor.isUnterminated, or_assoc]
      rw [List.findIdx?_cons, List.map_cons]
      show (if d.frame.raw = 0 ∨ d.stop = 0 ∨ d.skip = 0 then _ else _) = _
      by_cases hd : d.isUnterminated = true
      · rw [if_pos (hbad.mp hd), if_pos hd]
        rfl
      · rw [if_neg fun h => hd (hbad.mpr h), if_neg hd, ih, Option.map_map]
        simp only [Function.comp_def, Nat.add_assoc, Nat.add_comm 1]

theorem finish_laidOut (hs : Shaped r) (size : Nat) :
    r.laidOut.finish size = .ok (r.finish size) := by
  have hlen : r.laidOut.openStops.length = r.openRanks.length := List.length_map _
  have hchecked : unterminated? 0 (FrameTable.chunks (r.closeAll size).laidOut.words.toList) =
      .ok (((r.closeAll size).descriptors.findIdx? Descriptor.isUnterminated).map fun i =>
        i * descriptorWords) := by
    show unterminated? 0 (FrameTable.chunks
      ((r.closeAll size).descriptors.toList.flatMap Descriptor.words)) = _
    rw [FrameTable.chunks_flatMap_words, unterminated?_words, ← List.findIdx?_toArray,
      Array.toArray_toList]
    simp only [Nat.zero_add]
  unfold finish FrameRecorder.finish
  rw [hlen, closeInnermost_laidOut hs]
  simp only [bind, Except.bind]
  rw [← FrameRecorder.closeAll, hchecked]
  cases (r.closeAll size).descriptors.findIdx? Descriptor.isUnterminated <;> rfl

end WordRecorder

/-! ## Ranges -/

namespace FrameRecorder

/-- What a closed descriptor leads past lies within what a closed one around it leads past. -/
def Laminar (r : FrameRecorder) : Prop :=
  ∀ (i k : Nat) (d e : Descriptor), r.descriptors[i]? = some d → i ∉ r.openRanks → i < k →
    k * descriptorWords < d.skip → r.descriptors[k]? = some e → e.skip ≤ d.skip

theorem Laminar.kept (pos : Nat) : Kept pos fun r => Shaped r ∧ Laminar r where
  opens {r} frame h := by
    obtain ⟨hs, hl⟩ := h
    refine ⟨(Shaped.kept pos).opens frame hs, fun i k d e hd hi hik hk he => ?_⟩
    obtain ⟨hne, hi⟩ := not_or.mp fun hmem => hi (List.mem_cons.mpr hmem)
    rw [openFrame_getElem?, if_neg hne] at hd
    have hin := (hs.closed_inside hd hi hik hk).1
    rw [openFrame_getElem?, if_neg (Nat.ne_of_lt hin)] at he
    exact hl i k d e hd hi hik hk he
  closes {r rank ranks} hopen h := by
    obtain ⟨hs, hl⟩ := h
    have hclosed : Shaped (r.closeInnermost 1 pos) := (Shaped.kept pos).closes hopen hs
    refine ⟨hclosed, fun i k d e hd hi hik hk he => ?_⟩
    obtain ⟨d', hd', -, -, hother, hself⟩ := closeOne_descriptor hopen pos hd
    by_cases hrank : rank = i
    · -- it leads past all there is
      obtain ⟨-, hk'⟩ := hclosed.closed_inside hd hi hik hk
      obtain ⟨j, hskip, -, hj, -⟩ := hclosed.closed k e he hk'
      rw [closeOne_size hopen] at hj
      rw [hself hrank, hskip]
      exact Nat.mul_le_mul_right _ hj
    · obtain rfl := hother hrank
      have hi' : i ∉ r.openRanks := by
        rw [closeOne_openRanks hopen] at hi
        rw [hopen, List.mem_cons, not_or]
        exact ⟨Ne.symm hrank, hi⟩
      have hne : rank ≠ k := fun heq =>
        (hs.closed_inside hd' hi' hik hk).2 (hopen ▸ heq ▸ List.mem_cons_self ..)
      obtain ⟨e', he', -, -, hother', -⟩ := closeOne_descriptor hopen pos he
      obtain rfl := hother' hne
      exact hl i k d' e' hd' hi' hik hk he'
  depth _ h := ⟨(Shaped.kept pos).depth _ h.1, h.2⟩

theorem Laminar.empty : Laminar .empty := by
  rintro i k d e hd
  simp [FrameRecorder.empty] at hd

end FrameRecorder

namespace Descriptor

/-- Descriptors that could be decoded, with skips that lead forward to the start of a descriptor or
to the end, and that lead no further from inside of what another one leads past. -/
structure WellFormed (ds : List Descriptor) : Prop where
  frames : ∀ d ∈ ds, d.frame.raw ≠ 0
  stops : ∀ d ∈ ds, d.stop ≠ 0
  skips : ∀ (i : Nat) (d : Descriptor), ds[i]? = some d →
    ∃ j, d.skip = j * descriptorWords ∧ i < j ∧ j ≤ ds.length
  laminar : ∀ (i k : Nat) (d e : Descriptor), i < k → ds[i]? = some d → ds[k]? = some e →
    k * descriptorWords < d.skip → e.skip ≤ d.skip

end Descriptor

namespace FrameRecorder

variable {r : FrameRecorder}

theorem finish_wellFormed (hs : Shaped r) (hl : Laminar r) {size : Nat} {table : FrameTable}
    (hfinish : r.finish size = .ok table) :
    ∃ ds, table = .ofDescriptors ds ∧ Descriptor.WellFormed ds := by
  obtain ⟨hclosed, hlaminar⟩ := (Laminar.kept size).closeAll ⟨hs, hl⟩
  have hnone : ∀ i, i ∉ (r.closeAll size).openRanks := fun i => by
    rw [closeAll_openRanks]
    exact List.not_mem_nil
  have hdecodable : ∀ d ∈ (r.closeAll size).descriptors, d.isUnterminated = false := by
    unfold finish at hfinish
    dsimp only at hfinish
    split at hfinish
    · cases hfinish
    · rename_i hall
      exact Array.findIdx?_eq_none_iff.mp hall
  refine ⟨_, finish_eq hfinish, fun d hd => ?_, fun d hd => ?_, fun i d hd => ?_,
    fun i k d e hik hd he hk => ?_⟩
  · have := hdecodable d (Array.mem_def.mpr hd)
    simp only [Descriptor.isUnterminated, Bool.or_eq_false_iff, beq_eq_false_iff_ne] at this
    exact this.1.1
  · have := hdecodable d (Array.mem_def.mpr hd)
    simp only [Descriptor.isUnterminated, Bool.or_eq_false_iff, beq_eq_false_iff_ne] at this
    exact this.1.2
  · rw [Array.getElem?_toList] at hd
    obtain ⟨j, hskip, hij, hj, -⟩ := hclosed.closed i d hd (hnone i)
    exact ⟨j, hskip, hij, hj⟩
  · rw [Array.getElem?_toList] at hd he
    exact hlaminar i k d e hd (hnone i) hik hk he

/-- Reports in any order make no misstep in memory, which holds what was recorded. Neither does the
end of a recording, and if there is a table then, it is well formed. -/
theorem any_reports_recorded (steps : List Step) (size : Nat) :
    WordRecorder.run {} steps = .ok (run .empty steps).laidOut ∧
    (run .empty steps).laidOut.finish size = .ok ((run .empty steps).finish size) ∧
    ∀ table, (run .empty steps).finish size = .ok table →
      ∃ ds, table = .ofDescriptors ds ∧ Descriptor.WellFormed ds := by
  have hrecorded := Kept.run Laminar.kept ⟨Shaped.empty, Laminar.empty⟩ steps
  exact ⟨WordRecorder.run_laidOut Shaped.empty steps,
    WordRecorder.finish_laidOut hrecorded.1 size,
    fun _ hfinish => finish_wellFormed hrecorded.1 hrecorded.2 hfinish⟩

/-- Reports in no order. -/
example : (WordRecorder.run {} [.merge 3 ⟨1⟩ 20, .merge 1 ⟨2⟩ 5, .merge 2 ⟨3⟩ 1]).toOption.map
    (·.words) = some #[1, 20, 5, 4, 3, 1, 0, 0] := by decide

end FrameRecorder

end JitIndex
