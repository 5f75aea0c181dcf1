import JitIndex.Frame.Table

/-!
# Finding the frames at an offset

`FrameTable.next?` looks for the next frame that covers an offset, starting at a word of the
table, and says where the search for the frame after it starts; threading that cursor from word
0 lists the enclosing frames from the outermost inwards. The table need not be well formed: a
descriptor that runs past the end, or a skip that does not move forward, ends the search. Every
jump goes forward, so a search ends after at most as many steps as the table has words.

`FrameWalk` keeps a search in progress. It is a plain value, so copying it forks the search.

Main statements: `next?_cursor` bounds the cursor that a search returns, which makes the listings
`framesFrom` and `FrameWalk.collect` end.
-/

namespace JitIndex

namespace FrameTable

/-- The descriptor that starts at a word, if the table holds all of it. -/
def descriptorAt? (t : FrameTable) (pos : Nat) : Option Descriptor :=
  if h : pos + 4 ≤ t.words.size then
    some ⟨⟨t.words[pos]⟩, t.words[pos + 1], t.words[pos + 2], t.words[pos + 3]⟩
  else
    none

theorem descriptorAt?_bound {t : FrameTable} {pos : Nat} {d : Descriptor}
    (h : t.descriptorAt? pos = some d) : pos + 4 ≤ t.size := by
  unfold descriptorAt? at h
  split at h
  · assumption
  · exact nomatch h

/-- The next frame that covers `rel`, and the word at which the search for the one after it
starts. Descriptors are in order of their starts, so one that starts after `rel` ends the search;
one that stops at or before `rel` is skipped together with everything inlined into it. -/
def next? (t : FrameTable) (rel cursor : Nat) : Option (FrameId × Nat) :=
  match _h : t.descriptorAt? cursor with
  | none => none
  | some d =>
    if rel < d.start then none
    else if rel < d.stop then some (d.frame, cursor + descriptorWords)
    else if d.skip ≤ cursor then none
    else t.next? rel d.skip
termination_by t.size - cursor
decreasing_by
  have := descriptorAt?_bound _h
  omega

theorem next?_eq (t : FrameTable) (rel cursor : Nat) :
    t.next? rel cursor =
      match t.descriptorAt? cursor with
      | none => none
      | some d =>
        if rel < d.start then none
        else if rel < d.stop then some (d.frame, cursor + descriptorWords)
        else if d.skip ≤ cursor then none
        else t.next? rel d.skip := by
  rw [next?]
  split <;> rename_i h <;> simp [h]

/-- A search that finds a frame has read a whole descriptor at or after its cursor. -/
theorem next?_cursor {t : FrameTable} {rel cursor c : Nat} {f : FrameId}
    (h : t.next? rel cursor = some (f, c)) :
    cursor + descriptorWords ≤ c ∧ c ≤ t.size := by
  induction cursor using FrameTable.next?.induct t rel with
  | case1 cursor hd => simp [next?_eq, hd] at h
  | case2 cursor d hd hstart => simp [next?_eq, hd, hstart] at h
  | case3 cursor d hd hstart hstop =>
    rw [next?_eq, hd] at h
    simp only [hstart, hstop, if_false, if_true, Option.some.injEq, Prod.mk.injEq] at h
    have := descriptorAt?_bound hd
    simp only [descriptorWords] at h ⊢
    omega
  | case4 cursor d hd hstart hstop hskip => simp [next?_eq, hd, hstart, hstop, hskip] at h
  | case5 cursor d hd hstart hstop hskip ih =>
    rw [next?_eq, hd] at h
    simp only [hstart, hstop, hskip, if_false] at h
    have := ih h
    omega

/-- The frames that cover `rel`, from a cursor on, outermost first. -/
def framesFrom (t : FrameTable) (rel cursor : Nat) : List FrameId :=
  match _h : t.next? rel cursor with
  | none => []
  | some (f, c) => f :: t.framesFrom rel c
termination_by t.size - cursor
decreasing_by
  have := next?_cursor _h
  simp only [descriptorWords] at this
  omega

def framesAt (t : FrameTable) (rel : Nat) : List FrameId := t.framesFrom rel 0

end FrameTable

/-- A search for the frames at an offset, stopped before the descriptor at `cursor`. -/
structure FrameWalk where
  table : FrameTable
  rel : Nat
  cursor : Nat
deriving DecidableEq, Inhabited

namespace FrameWalk

/-- The search for the frames at `rel`, from the start of a table. -/
def start (t : FrameTable) (rel : Nat) : FrameWalk := ⟨t, rel, 0⟩

def empty : FrameWalk := ⟨⟨#[]⟩, 0, 0⟩

/-- A search that has found everything: it lets go of its table and rests at the table's end. A
search over no words rests where it is. -/
def parked (w : FrameWalk) : FrameWalk :=
  if w.table.words.isEmpty then w else ⟨⟨#[]⟩, w.rel, w.table.size⟩

/-- The next frame, and the search after it. -/
def step (w : FrameWalk) : Option FrameId × FrameWalk :=
  match w.table.next? w.rel w.cursor with
  | some (f, c) => (some f, { w with cursor := c })
  | none => (none, w.parked)

theorem step_some {w w' : FrameWalk} {f : FrameId} (h : w.step = (some f, w')) :
    w'.table = w.table ∧ w.cursor < w'.cursor ∧ w'.cursor ≤ w.table.size := by
  unfold step at h
  split at h
  · rename_i g c hn
    simp only [Prod.mk.injEq] at h
    have := FrameTable.next?_cursor hn
    simp only [descriptorWords] at this
    obtain ⟨-, rfl⟩ := h
    exact ⟨rfl, by show w.cursor < c; omega, by show c ≤ w.table.size; omega⟩
  · simp at h

/-- All the frames still to be found, and the search when it has found them. -/
def collect (w : FrameWalk) : List FrameId × FrameWalk :=
  match _h : w.step with
  | (none, w') => ([], w')
  | (some f, w') =>
    let (fs, last) := w'.collect
    (f :: fs, last)
termination_by w.table.size - w.cursor
decreasing_by
  have ⟨ht, hlt, hle⟩ := step_some _h
  rw [ht]
  omega

def text (w : FrameWalk) : String :=
  Text.record "Frames" [("words", w.table.flatText), ("rel_addr", toString w.rel),
    ("cursor", toString w.cursor)]

end FrameWalk

end JitIndex
