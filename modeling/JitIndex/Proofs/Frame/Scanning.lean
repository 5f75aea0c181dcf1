import JitIndex.Proofs.Frame.Decoding
import Mathlib.Data.List.Forall2

/-!
# Searching any table

A frame table may come from anywhere. Its last descriptor may be cut off, and
its skips may lead backwards, in circles, into the middle of a descriptor or
out of the table. `FrameTable.scan` is the search as a machine carries it out:
look by look, with one word read at a time, where a word that is not there and
a sum that is not a word are missteps.

- A look reads a descriptor only where all of it fits, so there are no missteps
  (`look_eq`).
- A jump goes forward, and it starts inside the table. So the words that are
  left bound the looks that a search takes, and the answer is that of
  `FrameTable.next?` (`scan_eq`).
- What is found lies at or after the cursor, in the table, and covers the
  offset (`next?_found`). Going on behind it, a listing never comes back to the
  same words (`framesFrom_places`), which bounds its length.
-/

namespace JitIndex

namespace FrameTable

/-! ## Missteps -/

/-- What can go wrong where words are read and added. -/
inductive Misstep where
  /-- A word was asked for that is not there. -/
  | outside (index : Nat)
  /-- The sum of two words is not a word. -/
  | overflow (a b : Nat)
deriving DecidableEq

def readWord (t : FrameTable) (i : Nat) : Except Misstep Nat :=
  match t.words[i]? with
  | some w => .ok w
  | none => .error (.outside i)

def addWords (a b : Nat) : Except Misstep Nat :=
  if a + b < UInt64.size then .ok (a + b) else .error (.overflow a b)

theorem readWord_eq {t : FrameTable} {i w : Nat} (h : t.words[i]? = some w) :
    t.readWord i = .ok w := by
  rw [readWord, h]

theorem addWords_eq {a b : Nat} (h : a + b < UInt64.size) : addWords a b = .ok (a + b) := if_pos h

/-! ## One look -/

/-- What a look at a descriptor comes to. -/
inductive Look where
  | ends
  | found (frame : FrameId) (cursor : Nat)
  | jumps (pos : Nat)
deriving DecidableEq

def readDescriptor (t : FrameTable) (pos : Nat) : Except Misstep Descriptor := do
  let frame ← t.readWord pos
  let start ← t.readWord (← addWords pos 1)
  let stop ← t.readWord (← addWords pos 2)
  let skip ← t.readWord (← addWords pos 3)
  return ⟨⟨frame⟩, start, stop, skip⟩

/-- What a search makes of the descriptor at `pos`. -/
def consider (rel pos next : Nat) (d : Descriptor) : Look :=
  if rel < d.start then .ends
  else if rel < d.stop then .found d.frame next
  else if d.skip ≤ pos then .ends
  else .jumps d.skip

/-- A look at the descriptor that starts at `pos`. Nothing is read before it is known that there is
a word behind it and that the table reaches that far. -/
def look (t : FrameTable) (rel pos : Nat) : Except Misstep Look :=
  if pos + descriptorWords < UInt64.size ∧ pos + descriptorWords ≤ t.size then do
    let next ← addWords pos descriptorWords
    let d ← t.readDescriptor pos
    return consider rel pos next d
  else return .ends

/-- A search of at most so many looks. It has no answer if it is not over by then. -/
def scan (t : FrameTable) (rel : Nat) :
    Nat → Nat → Except Misstep (Option (Option (FrameId × Nat)))
  | 0, _ => return none
  | looks + 1, pos => do
    match ← t.look rel pos with
    | .ends => return some none
    | .found frame cursor => return some (some (frame, cursor))
    | .jumps pos => t.scan rel looks pos

variable {t : FrameTable} {rel pos cursor : Nat}

/-- The words of a descriptor that fits are there. -/
theorem descriptorAt?_words {d : Descriptor} (h : t.descriptorAt? pos = some d) :
    t.words[pos]? = some d.frame.raw ∧ t.words[pos + 1]? = some d.start ∧
      t.words[pos + 2]? = some d.stop ∧ t.words[pos + 3]? = some d.skip := by
  unfold descriptorAt? at h
  split at h
  · rename_i hfits
    obtain rfl := Option.some.inj h
    exact ⟨Array.getElem?_eq_getElem _, Array.getElem?_eq_getElem _, Array.getElem?_eq_getElem _,
      Array.getElem?_eq_getElem _⟩
  · cases h

theorem descriptorAt?_eq_none_iff :
    t.descriptorAt? pos = none ↔ t.size < pos + descriptorWords := by
  unfold descriptorAt?
  split
  · rename_i hfits
    exact iff_of_false (by rintro ⟨⟩) (Nat.not_lt_of_le hfits)
  · rename_i hcut
    exact iff_of_true rfl (Nat.lt_of_not_le hcut)

/-- A descriptor that fits is read without a misstep. -/
theorem readDescriptor_eq {d : Descriptor} (hword : pos + descriptorWords < UInt64.size)
    (h : t.descriptorAt? pos = some d) : t.readDescriptor pos = .ok d := by
  obtain ⟨h0, h1, h2, h3⟩ := descriptorAt?_words h
  simp only [descriptorWords] at hword
  unfold readDescriptor
  rw [readWord_eq h0, addWords_eq (by omega), addWords_eq (by omega), addWords_eq (by omega)]
  simp only [bind, Except.bind, readWord_eq h1, readWord_eq h2, readWord_eq h3]
  rfl

/-- There is nothing wrong with a look, wherever it is. -/
theorem look_eq (hfits : t.size < UInt64.size) (rel pos : Nat) :
    t.look rel pos = .ok (match t.descriptorAt? pos with
      | none => .ends
      | some d => consider rel pos (pos + descriptorWords) d) := by
  unfold look
  cases hd : t.descriptorAt? pos with
  | none =>
      have hcut := descriptorAt?_eq_none_iff.mp hd
      rw [if_neg fun h => Nat.not_lt_of_le h.2 hcut]
      rfl
  | some d =>
      have hin : pos + descriptorWords ≤ t.size := descriptorAt?_bound hd
      have hword : pos + descriptorWords < UInt64.size := Nat.lt_of_le_of_lt hin hfits
      rw [if_pos ⟨hword, hin⟩, addWords_eq hword, readDescriptor_eq hword hd]
      rfl

/-! ## Many looks -/

/-- A search that may take more looks than there are words left is over in time, and answers as
`next?` does. -/
theorem scan_eq (hfits : t.size < UInt64.size) {looks : Nat} (hlooks : t.size - pos < looks) :
    t.scan rel looks pos = .ok (some (t.next? rel pos)) := by
  induction looks generalizing pos with
  | zero => exact absurd hlooks (Nat.not_lt_zero _)
  | succ looks ih =>
      unfold scan
      rw [look_eq hfits, next?_eq]
      cases hd : t.descriptorAt? pos with
      | none => rfl
      | some d =>
          have hin : pos + descriptorWords ≤ t.size := descriptorAt?_bound hd
          simp only [bind, Except.bind, consider]
          by_cases hstart : rel < d.start
          · simp only [if_pos hstart]
            rfl
          by_cases hstop : rel < d.stop
          · simp only [if_neg hstart, if_pos hstop]
            rfl
          by_cases hskip : d.skip ≤ pos
          · simp only [if_neg hstart, if_neg hstop, if_pos hskip]
            rfl
          · -- the words passed over are words less to look at
            simp only [if_neg hstart, if_neg hstop, if_neg hskip]
            simp only [descriptorWords] at hin
            exact ih (by omega)

/-! ## What is found -/

/-- The descriptor at a word is in the table, is that of a frame, and covers an offset. -/
structure CoveredAt (t : FrameTable) (rel pos : Nat) (f : FrameId) : Prop where
  inside : pos + descriptorWords ≤ t.size
  frame : t.words[pos]? = some f.raw
  start : ∃ start, t.words[pos + 1]? = some start ∧ start ≤ rel
  stop : ∃ stop, t.words[pos + 2]? = some stop ∧ rel < stop

theorem next?_found {f : FrameId} {c : Nat} (h : t.next? rel cursor = some (f, c)) :
    ∃ pos, cursor ≤ pos ∧ c = pos + descriptorWords ∧ t.CoveredAt rel pos f := by
  induction cursor using FrameTable.next?.induct t rel with
  | case1 cursor hd => simp [next?_eq, hd] at h
  | case2 cursor d hd hstart => simp [next?_eq, hd, hstart] at h
  | case3 cursor d hd hstart hstop =>
      obtain ⟨hframe, hstart', hstop', -⟩ := descriptorAt?_words hd
      rw [next?_eq, hd] at h
      simp only [if_neg hstart, if_pos hstop, Option.some.injEq, Prod.mk.injEq] at h
      obtain ⟨rfl, rfl⟩ := h
      exact ⟨cursor, Nat.le_refl _, rfl, descriptorAt?_bound hd, hframe,
        ⟨d.start, hstart', Nat.le_of_not_lt hstart⟩, ⟨d.stop, hstop', hstop⟩⟩
  | case4 cursor d hd hstart hstop hskip => simp [next?_eq, hd, hstart, hstop, hskip] at h
  | case5 cursor d hd hstart hstop hskip ih =>
      rw [next?_eq, hd] at h
      simp only [if_neg hstart, if_neg hstop, if_neg hskip] at h
      obtain ⟨pos, hle, hfound⟩ := ih h
      exact ⟨pos, by omega, hfound⟩

/-! ## Listing -/

/-- Every frame of a listing has a descriptor of its own, behind those of the frames before it. -/
theorem framesFrom_places (t : FrameTable) (rel cursor : Nat) :
    ∃ places : List Nat, List.Forall₂ (fun f pos => t.CoveredAt rel pos f)
        (t.framesFrom rel cursor) places ∧
      (∀ pos ∈ places, cursor ≤ pos) ∧ places.Pairwise fun p q => p + descriptorWords ≤ q := by
  induction cursor using FrameTable.framesFrom.induct t rel with
  | case1 cursor hnone =>
      rw [framesFrom_nil hnone]
      exact ⟨[], .nil, fun _ h => absurd h List.not_mem_nil, .nil⟩
  | case2 cursor f c hfound ih =>
      obtain ⟨pos, hle, hc, hcovered⟩ := next?_found hfound
      obtain ⟨places, hplaces, hafter, hapart⟩ := ih
      rw [framesFrom_cons hfound]
      have hbehind : ∀ q ∈ places, pos + descriptorWords ≤ q := fun q hq => hc ▸ hafter q hq
      refine ⟨pos :: places, .cons hcovered hplaces, fun q hq => ?_,
        List.pairwise_cons.mpr ⟨hbehind, hapart⟩⟩
      rcases List.mem_cons.mp hq with rfl | hq
      · exact hle
      · have := hbehind q hq
        omega

theorem length_framesFrom_le (t : FrameTable) (rel cursor : Nat) :
    (t.framesFrom rel cursor).length ≤ (t.size - cursor) / descriptorWords := by
  rw [Nat.le_div_iff_mul_le (by decide)]
  induction cursor using FrameTable.framesFrom.induct t rel with
  | case1 cursor hnone =>
      rw [framesFrom_nil hnone, List.length_nil, Nat.zero_mul]
      exact Nat.zero_le _
  | case2 cursor f c hfound ih =>
      have hcursor := next?_cursor hfound
      rw [framesFrom_cons hfound, List.length_cons, Nat.succ_mul]
      omega

/-- Whatever a table holds, as long as its words can be counted in a word, a search through it makes
no misstep, and is over after as many looks as there are words left, and one more. What it finds is
a descriptor at or after the cursor that covers the offset; and searching on and on, as a walk does,
finds one such descriptor behind the other. -/
theorem any_table_searched (t : FrameTable) (hfits : t.size < UInt64.size) (rel cursor : Nat) :
    (∀ looks, t.size - cursor < looks →
      t.scan rel looks cursor = .ok (some (t.next? rel cursor))) ∧
    (∀ f c, t.next? rel cursor = some (f, c) →
      ∃ pos, cursor ≤ pos ∧ c = pos + descriptorWords ∧ t.CoveredAt rel pos f) ∧
    (∃ places : List Nat,
      List.Forall₂ (fun f pos => t.CoveredAt rel pos f) (t.framesFrom rel cursor) places ∧
      (∀ pos ∈ places, cursor ≤ pos) ∧ places.Pairwise fun p q => p + descriptorWords ≤ q) ∧
    (t.framesFrom rel cursor).length ≤ (t.size - cursor) / descriptorWords ∧
    (⟨t, rel, cursor⟩ : FrameWalk).collect.1 = t.framesFrom rel cursor :=
  ⟨fun _ hlooks => scan_eq hfits hlooks, fun _ _ => next?_found, t.framesFrom_places rel cursor,
    t.length_framesFrom_le rel cursor, FrameWalk.collect_eq _⟩

/-- A table with a skip into the middle of a descriptor, another one that leads nowhere, and a
descriptor that is cut off; it is searched from its first word, and from the last word there is. -/
theorem misshapen_searched :
    let t : FrameTable := ⟨#[1, 0, 10, 5, 7, 2, 0, 15, 6, 9, 8]⟩
    t.scan 12 12 0 = .ok (some (some (⟨2⟩, 9))) ∧ (t.framesFrom 12 0).length ≤ 2 ∧
      t.scan 12 1 (UInt64.size - 1) = .ok (some none) := by
  intro t
  have hfits : t.size < UInt64.size := by decide
  have hfirst := any_table_searched t hfits 12 0
  have hlast := any_table_searched t hfits 12 (UInt64.size - 1)
  have hfound : t.next? 12 0 = some (⟨2⟩, 9) := by cbv
  have hnone : t.next? 12 (UInt64.size - 1) = none := by cbv
  exact ⟨hfound ▸ hfirst.1 12 (by decide), Nat.le_trans hfirst.2.2.2.1 (by decide),
    hnone ▸ hlast.1 1 (by decide)⟩

end FrameTable

end JitIndex
