import JitIndex.Proofs.Frame.Decoding
import JitIndex.Region

/-!
# Picking a search up again

The frames at an address can be found in two ways: by a walk, which keeps its
place, and by hand, one look after the other, where whoever looks keeps the
word to go on from. A walk shows that word, and it can be copied at any time,
so a search that one of them began can be ended by any other.

What is left for a walk depends only on how often it was asked for a frame, it
or the walks that it was copied from (`FrameWalk.foldl_use`). What is left by
hand, from the word that a walk shows, is the same: as long as the walk has its
table, because both look at the same words, and when it has found everything,
because the word it rests at is the end of the table (`FrameWalk.Searches`).
So nothing depends on who searches (`CodeRegion.searches_resume`).
-/

namespace JitIndex

/-! ## Where nothing is left -/

namespace FrameTable

variable {t : FrameTable} {rel cursor : Nat}

/-- There is nothing to be found where no descriptor fits. -/
theorem next?_of_not_fits (h : t.size < cursor + descriptorWords) : t.next? rel cursor = none := by
  rw [next?_eq]
  cases hd : t.descriptorAt? cursor with
  | none => rfl
  | some d => exact absurd h (Nat.not_lt_of_le (descriptorAt?_bound hd))

theorem next?_of_no_words (h : t.words = #[]) : t.next? rel cursor = none := by
  refine next?_of_not_fits ?_
  rw [size, h, Array.size_empty]
  exact Nat.succ_pos _

end FrameTable

/-! ## Searching by hand -/

namespace CodeRegion

variable {r : CodeRegion} {a : Addr} {cursor : Nat}

/-- Looking on and on, from a word of the table until there is nothing more, finds these frames. -/
inductive Threads (r : CodeRegion) (a : Addr) : Nat → List FrameId → Prop where
  | ends {cursor : Nat} (h : r.next? a cursor = none) : Threads r a cursor []
  | goesOn {cursor next : Nat} {f : FrameId} {fs : List FrameId}
      (h : r.next? a cursor = some (f, next)) (rest : Threads r a next fs) :
      Threads r a cursor (f :: fs)

/-- The frames at an address, from a word of the table on. -/
def framesFrom (r : CodeRegion) (a : Addr) (cursor : Nat) : List FrameId :=
  if r.contains a then r.table.framesFrom (r.offset a) cursor else []

theorem next?_eq_none_of_not_contains (h : r.contains a = false) : r.next? a cursor = none := by
  rw [next?, h]
  rfl

/-- There is no other end to looking than the one that the table leads to. -/
theorem Threads.eq_framesFrom {fs : List FrameId} (h : r.Threads a cursor fs) :
    fs = r.framesFrom a cursor := by
  unfold framesFrom
  induction h with
  | ends h =>
      unfold next? at h
      split at h
      · rw [FrameTable.framesFrom_nil h]
        exact (ite_self _).symm
      · rename_i hout
        rw [if_neg hout]
  | goesOn h _ ih =>
      unfold next? at h
      split at h
      · rename_i hin
        rw [if_pos hin, FrameTable.framesFrom_cons h, ih, if_pos hin]
      · cases h

/-- Looking does come to an end. -/
theorem threads_framesFrom (r : CodeRegion) (a : Addr) (cursor : Nat) :
    r.Threads a cursor (r.framesFrom a cursor) := by
  unfold framesFrom
  cases hin : r.contains a with
  | false => exact .ends (next?_eq_none_of_not_contains hin)
  | true =>
      have hnext : ∀ cursor, r.next? a cursor = r.table.next? (r.offset a) cursor := fun _ =>
        if_pos hin
      rw [if_pos rfl]
      induction cursor using FrameTable.framesFrom.induct r.table (r.offset a) with
      | case1 cursor hnone =>
          rw [FrameTable.framesFrom_nil hnone]
          exact .ends ((hnext cursor).trans hnone)
      | case2 cursor f next hfound ih =>
          rw [FrameTable.framesFrom_cons hfound]
          exact .goesOn ((hnext cursor).trans hfound) ih

theorem threads_iff (r : CodeRegion) (a : Addr) (cursor : Nat) (fs : List FrameId) :
    r.Threads a cursor fs ↔ fs = r.framesFrom a cursor :=
  ⟨Threads.eq_framesFrom, fun h => h ▸ r.threads_framesFrom a cursor⟩

/-- The word that a walk rests at when it has found everything. -/
def restsAt (r : CodeRegion) (a : Addr) : Nat := if r.contains a then r.table.size else 0

theorem next?_restsAt (r : CodeRegion) (a : Addr) : r.next? a (r.restsAt a) = none := by
  unfold next? restsAt
  split
  · exact FrameTable.next?_of_not_fits (Nat.lt_add_of_pos_right (by decide))
  · rfl

end CodeRegion

/-! ## Walking -/

namespace FrameWalk

variable {r : CodeRegion} {a : Addr} {w : FrameWalk}

/-- A walk that rests has let go of its words. -/
theorem words_parked (w : FrameWalk) : w.parked.table.words = #[] := by
  unfold parked
  split
  · rename_i h
    exact Array.isEmpty_iff.mp h
  · rfl

/-- It goes on resting. -/
theorem step_of_no_words (h : w.table.words = #[]) : w.step = (none, w) := by
  unfold step parked
  rw [FrameTable.next?_of_no_words h, h]
  rfl

/-- A walk gives the frames one by one. -/
theorem step_fst (w : FrameWalk) : w.step.1 = w.collect.1.head? := by
  rw [collect_eq]
  unfold step
  cases hnext : w.table.next? w.rel w.cursor with
  | none => rw [FrameTable.framesFrom_nil hnext]; rfl
  | some found => rw [FrameTable.framesFrom_cons hnext]; rfl

theorem collect_step (w : FrameWalk) : w.step.2.collect.1 = w.collect.1.tail := by
  rw [collect_eq w, collect_eq]
  unfold step
  cases hnext : w.table.next? w.rel w.cursor with
  | none =>
      rw [FrameTable.framesFrom_nil hnext]
      exact FrameTable.framesFrom_nil (FrameTable.next?_of_no_words w.words_parked)
  | some found =>
      rw [FrameTable.framesFrom_cons hnext]
      rfl

/-- The walk when it was asked for so many frames. -/
def after (w : FrameWalk) : Nat → FrameWalk
  | 0 => w
  | n + 1 => (w.after n).step.2

theorem collect_after (w : FrameWalk) (n : Nat) : (w.after n).collect.1 = w.collect.1.drop n := by
  induction n with
  | zero => rfl
  | succ n ih => rw [after, collect_step, ih, List.tail_drop]

theorem step_after (w : FrameWalk) (n : Nat) : (w.after n).step.1 = w.collect.1[n]? := by
  rw [step_fst, collect_after, List.head?_drop]

/-! ## The same search -/

/-- The walk looks for the frames at an address of a region, or it has found them all. -/
inductive Searches (r : CodeRegion) (a : Addr) (w : FrameWalk) : Prop where
  | looks (contains : r.contains a = true) (table : w.table = r.table) (rel : w.rel = r.offset a)
      (cursor : w.cursor ≤ r.table.size)
  | rests (words : w.table.words = #[]) (cursor : w.cursor = r.restsAt a)

theorem Searches.start (r : CodeRegion) (a : Addr) : Searches r a (r.walkAt a) := by
  unfold CodeRegion.walkAt
  split
  · rename_i hin
    exact .looks hin rfl rfl (Nat.zero_le _)
  · rename_i hout
    exact .rests rfl (if_neg hout).symm

theorem Searches.parked (h : Searches r a w) : w.parked.cursor = r.restsAt a := by
  unfold FrameWalk.parked
  cases h with
  | rests words cursor => rw [words]; exact cursor
  | looks contains table _ cursor =>
      rw [CodeRegion.restsAt, if_pos contains]
      split
      · -- a table without words ends where the walk began
        rename_i hempty
        rw [table, Array.isEmpty_iff] at hempty
        rw [FrameTable.size, hempty] at cursor ⊢
        exact Nat.le_zero.mp cursor
      · rw [table]

theorem Searches.step (h : Searches r a w) : Searches r a w.step.2 := by
  have hparked := h.parked
  unfold FrameWalk.step
  cases hnext : w.table.next? w.rel w.cursor with
  | none => exact .rests w.words_parked hparked
  | some found =>
      cases h with
      | looks contains table rel cursor =>
          exact .looks contains table rel (table ▸ (FrameTable.next?_cursor hnext).2)
      | rests words cursor =>
          rw [FrameTable.next?_of_no_words words] at hnext
          cases hnext

theorem Searches.after (h : Searches r a w) (n : Nat) : Searches r a (w.after n) := by
  induction n with
  | zero => exact h
  | succ n ih => exact ih.step

/-- By hand, the search goes on as the walk does. -/
theorem Searches.framesFrom (h : Searches r a w) : r.framesFrom a w.cursor = w.collect.1 := by
  rw [collect_eq]
  cases h with
  | looks contains table rel cursor => rw [CodeRegion.framesFrom, if_pos contains, table, rel]
  | rests words cursor =>
      rw [FrameTable.framesFrom_nil (FrameTable.next?_of_no_words words), cursor]
      exact (CodeRegion.Threads.ends (r.next?_restsAt a)).eq_framesFrom.symm

/-- When there is nothing more to find, there never is again. -/
theorem Searches.exhausted (h : Searches r a w) (hnone : w.step.1 = none) :
    w.step.2.step = (none, w.step.2) ∧ w.step.2.cursor = r.restsAt a := by
  unfold FrameWalk.step at hnone ⊢
  cases hnext : w.table.next? w.rel w.cursor with
  | none => exact ⟨step_of_no_words w.words_parked, h.parked⟩
  | some found => rw [hnext] at hnone; cases hnone

/-! ## Many walks -/

/-- What is done with some walks. -/
inductive Use where
  /-- A walk is asked for a frame. -/
  | next (walk : Nat)
  /-- A walk is copied; the copy is the last one from then on. -/
  | fork (walk : Nat)

def use (ws : List FrameWalk) : Use → List FrameWalk
  | .next i => ws.modify i (·.step.2)
  | .fork i => ws ++ ws[i]?.toList

/-- How often each walk was asked for a frame. A copy was asked as often as the walk it is a copy
of. -/
def asked (counts : List Nat) : Use → List Nat
  | .next i => counts.modify i (· + 1)
  | .fork i => counts ++ counts[i]?.toList

theorem use_map_after (w : FrameWalk) (counts : List Nat) (u : Use) :
    use (counts.map w.after) u = (asked counts u).map w.after := by
  cases u with
  | next i =>
      refine List.ext_getElem? fun j => ?_
      simp only [use, asked, List.getElem?_modify, List.getElem?_map]
      cases counts[j]? with
      | none => rfl
      | some n =>
          by_cases hij : i = j
          · simp only [if_pos hij]
            rfl
          · simp only [if_neg hij]
            rfl
  | fork i =>
      simp only [use, asked, List.map_append, List.getElem?_map]
      cases counts[i]? <;> rfl

/-- Whatever is done with a walk and its copies, each of them is as far as it was asked to go. -/
theorem foldl_use (w : FrameWalk) (us : List Use) :
    us.foldl use [w] = (us.foldl asked [0]).map w.after := by
  suffices h : ∀ counts : List Nat,
      us.foldl use (counts.map w.after) = (us.foldl asked counts).map w.after from h [0]
  induction us with
  | nil => exact fun _ => rfl
  | cons u us ih =>
      intro counts
      rw [List.foldl_cons, List.foldl_cons, use_map_after, ih]

/-- To ask one walk, or to copy one, makes no difference to another. -/
theorem use_getElem?_of_ne {ws : List FrameWalk} {i : Nat} (hw : ws[i]? = some w) {u : Use}
    (hu : u ≠ .next i) : (use ws u)[i]? = some w := by
  cases u with
  | next j =>
      have hji : j ≠ i := fun h => hu (h ▸ rfl)
      simp [use, hw, hji]
  | fork j => rw [use, List.getElem?_append_left (List.getElem?_eq_some_iff.mp hw).1, hw]

end FrameWalk

/-- The frames at an address, as a walk finds them, are those that looking by hand finds. However
often the walk and its copies are asked for frames, in whatever order, each has left to find what it
was not asked for yet, and so has a search by hand from the word that it shows; to ask it makes no
difference to the others. A walk that finds nothing never finds anything again. The word it shows
stays the end of the table, where there is nothing to be found by hand, or word 0 if the address is
not in the region. -/
theorem CodeRegion.searches_resume (r : CodeRegion) (a : Addr) :
    (∀ fs, r.Threads a 0 fs ↔ fs = r.framesAt a) ∧
    ∀ us : List FrameWalk.Use,
      let ws := us.foldl FrameWalk.use [r.walkAt a]
      ∀ (i : Nat) (w : FrameWalk), ws[i]? = some w →
        (∃ n, (us.foldl FrameWalk.asked [0])[i]? = some n ∧ w.step.1 = (r.framesAt a)[n]? ∧
          w.collect.1 = (r.framesAt a).drop n ∧
          ∀ fs, r.Threads a w.cursor fs ↔ fs = (r.framesAt a).drop n) ∧
        (∀ u, u ≠ .next i → (FrameWalk.use ws u)[i]? = some w) ∧
        FrameWalk.use ws (.fork i) = ws ++ [w] ∧
        (w.step.1 = none →
          let last := w.step.2
          last.step = (none, last) ∧ last.cursor = (if r.contains a then r.table.size else 0) ∧
            r.next? a last.cursor = none) := by
  have hstart := FrameWalk.Searches.start r a
  constructor
  · intro fs
    rw [threads_iff, framesAt, ← hstart.framesFrom]
    unfold walkAt
    split <;> rfl
  · intro us ws i w hw
    obtain ⟨n, hn, rfl⟩ : ∃ n, (us.foldl FrameWalk.asked [0])[i]? = some n ∧
        (r.walkAt a).after n = w := by
      simpa only [ws, FrameWalk.foldl_use, List.getElem?_map, Option.map_eq_some_iff] using hw
    have hsearches := hstart.after n
    refine ⟨⟨n, hn, (r.walkAt a).step_after n, (r.walkAt a).collect_after n, ?_⟩, ?_, ?_, ?_⟩
    · intro fs
      rw [threads_iff, hsearches.framesFrom, FrameWalk.collect_after]
      rfl
    · intro u hu
      exact FrameWalk.use_getElem?_of_ne hw hu
    · rw [FrameWalk.use, hw]
      rfl
    · intro hnone
      obtain ⟨hrests, hcursor⟩ := hsearches.exhausted hnone
      exact ⟨hrests, hcursor, hcursor ▸ r.next?_restsAt a⟩

end JitIndex
