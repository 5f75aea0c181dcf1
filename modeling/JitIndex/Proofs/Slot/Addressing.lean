import JitIndex.Slot.Id
import Mathlib.Algebra.BigOperators.Group.Finset.Basic
import Mathlib.Data.Prod.Lex

/-!
# Slots have addresses

The slots of a pool are numbered through its segments, one after the other.
With one more segment of the length of the first in front, the numbers of a
segment are those with one logarithm, so the logarithm tells the segment and
what is left is the offset (`SlotId.val_eq`). Every offset in a segment is
taken as long as there are numbers (`SlotId.exists_at`).

A machine takes the logarithm by counting zero bits, and adds and subtracts
words. `SlotId.locate?` is that computation, with no result where a sum, a
difference or a power is not a word; there always is one
(`SlotId.locate?_eq`).
-/

namespace JitIndex

/-! ## Arithmetic on words that do not wrap -/

namespace Checked

variable {n : Nat}

def add (a b : BitVec n) : Option (BitVec n) := if a.uaddOverflow b then none else some (a + b)

def sub (a b : BitVec n) : Option (BitVec n) := if a.usubOverflow b then none else some (a - b)

/-- The power of two with an exponent. -/
def pow (n : Nat) (exponent : BitVec 32) : Option (BitVec n) :=
  if exponent.toNat < n then some (1#n <<< exponent.toNat) else none

/-- A word in another width. -/
def resize (m : Nat) (a : BitVec n) : Option (BitVec m) :=
  if a.toNat < 2 ^ m then some (a.setWidth m) else none

theorem add_eq {a b : BitVec n} (h : a.toNat + b.toNat < 2 ^ n) :
    ∃ c, add a b = some c ∧ c.toNat = a.toNat + b.toNat := by
  have hfits : ¬ a.uaddOverflow b = true := by simpa [BitVec.uaddOverflow] using h
  exact ⟨a + b, if_neg hfits, BitVec.toNat_add_of_not_uaddOverflow hfits⟩

theorem sub_eq {a b : BitVec n} (h : b.toNat ≤ a.toNat) :
    ∃ c, sub a b = some c ∧ c.toNat = a.toNat - b.toNat := by
  have hfits : ¬ a.usubOverflow b = true := by simpa [BitVec.usubOverflow] using h
  exact ⟨a - b, if_neg hfits, BitVec.toNat_sub_of_not_usubOverflow hfits⟩

theorem pow_eq {exponent : BitVec 32} (h : exponent.toNat < n) :
    ∃ c, pow n exponent = some c ∧ c.toNat = 2 ^ exponent.toNat := by
  refine ⟨1#n <<< exponent.toNat, if_pos h, ?_⟩
  have hfits : 2 ^ exponent.toNat < 2 ^ n := Nat.pow_lt_pow_right (by decide) h
  rw [BitVec.toNat_shiftLeft, BitVec.toNat_ofNat, Nat.shiftLeft_eq,
    Nat.mod_eq_of_lt (Nat.one_lt_two_pow (Nat.ne_of_gt (Nat.zero_lt_of_lt h))), Nat.one_mul,
    Nat.mod_eq_of_lt hfits]

theorem resize_eq {m : Nat} {a : BitVec n} (h : a.toNat < 2 ^ m) :
    ∃ c : BitVec m, resize m a = some c ∧ c.toNat = a.toNat :=
  ⟨a.setWidth m, if_pos h, (BitVec.toNat_setWidth ..).trans (Nat.mod_eq_of_lt h)⟩

/-- The zero bits in front of a word tell its logarithm. -/
theorem log2_eq_clz {a : BitVec n} (hn : 0 < n) (ha : a.toNat ≠ 0) :
    a.clz.toNat + Nat.log2 a.toNat + 1 = n := by
  have hne : a ≠ 0#n := fun h => ha (by rw [h]; rfl)
  have hlow := BitVec.two_pow_sub_clz_le_toNat_of_ne_zero hn hne
  have hhigh := BitVec.toNat_lt_two_pow_sub_clz (x := a)
  rw [← Nat.le_log2 ha] at hlow
  rw [← Nat.log2_lt ha] at hhigh
  omega

end Checked

/-! ## Segments one after the other -/

theorem segmentSize_eq (segment : Nat) : segmentSize segment = 32 * 2 ^ segment := by
  rw [segmentSize, firstSegmentLog, Nat.one_shiftLeft, Nat.pow_add, Nat.mul_comm]

/-- The number of slots in front of a segment. -/
def slotsBefore (segment : Nat) : Nat := ∑ s ∈ Finset.range segment, segmentSize s

theorem slotsBefore_succ (segment : Nat) :
    slotsBefore (segment + 1) = slotsBefore segment + segmentSize segment :=
  Finset.sum_range_succ ..

/-- With one more segment in front, there are as many slots before a segment as in it. -/
theorem slotsBefore_add (segment : Nat) :
    slotsBefore segment + segmentSize 0 = segmentSize segment := by
  induction segment with
  | zero => exact Nat.zero_add _
  | succ segment ih =>
      have hdouble : segmentSize (segment + 1) = segmentSize segment + segmentSize segment := by
        rw [segmentSize_eq, segmentSize_eq, Nat.pow_succ]
        omega
      rw [slotsBefore_succ, hdouble]
      omega

theorem slotsBefore_mono {s s' : Nat} (h : s ≤ s') : slotsBefore s ≤ slotsBefore s' := by
  induction h with
  | refl => exact Nat.le_refl _
  | step _ ih =>
      rw [slotsBefore_succ]
      exact Nat.le_add_right_of_le ih

/-- Offsets do not reach into the next segment. -/
theorem add_slotsBefore_lt {s s' o : Nat} (ho : o < segmentSize s) (h : s < s') :
    o + slotsBefore s < slotsBefore s' := by
  have hnext := slotsBefore_mono h
  rw [slotsBefore_succ] at hnext
  omega

namespace SlotId

/-- The slots are numbered through the segments. -/
theorem val_eq (id : SlotId) : id.val - 1 = id.offset + slotsBefore id.segment := by
  have hlow := id.segmentSize_le_shifted.1
  have hbefore := slotsBefore_add id.segment
  simp only [offset, shifted] at *
  omega

/-- There is a slot at every offset of a segment, as long as there are numbers. -/
theorem exists_at {s o : Nat} (ho : o < segmentSize s)
    (hnumber : o + slotsBefore s < UInt32.size - 1) :
    ∃ id : SlotId, id.segment = s ∧ id.offset = o := by
  refine ⟨⟨o + slotsBefore s + 1, Nat.succ_pos _, by omega⟩, ?_⟩
  have hshifted :
      shifted ⟨o + slotsBefore s + 1, Nat.succ_pos _, by omega⟩ = segmentSize s + o := by
    have hbefore := slotsBefore_add s
    simp only [shifted]
    omega
  have hlog : Nat.log2 (segmentSize s + o) = s + firstSegmentLog := by
    rw [segmentSize, Nat.one_shiftLeft] at ho ⊢
    refine (Nat.log2_eq_iff (by omega)).mpr ⟨Nat.le_add_right .., ?_⟩
    rw [Nat.pow_succ]
    omega
  have hsegment : segment ⟨o + slotsBefore s + 1, Nat.succ_pos _, by omega⟩ = s := by
    rw [segment, hshifted, hlog]
    exact Nat.add_sub_cancel ..
  refine ⟨hsegment, ?_⟩
  rw [offset, hsegment, hshifted]
  exact Nat.add_sub_cancel_left ..

/-- Slots are in the order of their numbers, segment by segment and offset by offset. -/
theorem lt_iff_place_lt (a b : SlotId) :
    a.val < b.val ↔ toLex (a.segment, a.offset) < toLex (b.segment, b.offset) := by
  have ha := a.val_eq
  have hb := b.val_eq
  have hpa := a.pos
  have hpb := b.pos
  rw [Prod.Lex.toLex_lt_toLex]
  rcases Nat.lt_trichotomy a.segment b.segment with hlt | heq | hgt
  · have hapart := add_slotsBefore_lt a.offset_lt hlt
    refine iff_of_true ?_ (.inl hlt)
    omega
  · rw [heq] at ha
    refine Iff.trans ?_ (Iff.symm (or_iff_right (by simp only [heq]; omega)))
    simp only [heq, true_and]
    omega
  · have hapart := add_slotsBefore_lt b.offset_lt hgt
    refine iff_of_false ?_ ?_
    · omega
    · simp only [not_or, not_and]
      omega

/-! ## As a machine finds them -/

/-- The logarithm of the length of the first segment, in a word. -/
def firstLog : BitVec 32 := .ofNat 32 firstSegmentLog

/-- The place of a slot were there one more segment in front. -/
def shifted? (id : SlotId) : Option (BitVec 64) := do
  Checked.add (← Checked.sub (.ofNat 64 id.val) 1) (← Checked.pow 64 firstLog)

/-- The segment of a shifted place. -/
def segment? (index : BitVec 64) : Option (BitVec 32) := do
  let zeros ← Checked.resize 32 index.clz
  Checked.sub (← Checked.sub (← Checked.sub 64 1) zeros) firstLog

/-- The segment and the offset of a slot. -/
def locate? (id : SlotId) : Option (BitVec 64 × BitVec 64) := do
  let index ← id.shifted?
  let segment ← segment? index
  let offset ← Checked.sub index (← Checked.pow 64 (← Checked.add segment firstLog))
  return (← Checked.resize 64 segment, offset)

/-- The length of a segment. -/
def segmentLength? (segment : BitVec 64) : Option (BitVec 64) := do
  Checked.pow 64 (← Checked.add (← Checked.resize 32 segment) firstLog)

theorem toNat_firstLog : firstLog.toNat = 5 := rfl

theorem shifted?_eq (id : SlotId) : ∃ c, id.shifted? = some c ∧ c.toNat = id.shifted := by
  have hpos := id.pos
  have hlt := id.lt
  have hlog := toNat_firstLog
  have hone : (1 : BitVec 64).toNat = 1 := rfl
  have hval : (BitVec.ofNat 64 id.val).toNat = id.val :=
    Nat.mod_eq_of_lt (Nat.lt_trans hlt (by decide))
  rw [UInt32.size] at hlt
  obtain ⟨rank, hrank, hrank'⟩ :=
    Checked.sub_eq (a := BitVec.ofNat 64 id.val) (b := 1) (by rw [hval]; exact hpos)
  obtain ⟨first, hfirst, hfirst'⟩ :=
    Checked.pow_eq (n := 64) (show firstLog.toNat < 64 by rw [hlog]; decide)
  rw [hval, hone] at hrank'
  rw [hlog] at hfirst'
  obtain ⟨index, hindex, hindex'⟩ := Checked.add_eq (a := rank) (b := first) (by omega)
  refine ⟨index, ?_, ?_⟩
  · simp only [shifted?, hrank, hfirst, hindex, Option.bind_eq_bind, Option.bind_some]
  · rw [hindex', hrank', hfirst', shifted, segmentSize_eq]
    rfl

theorem segment?_eq (id : SlotId) {index : BitVec 64} (h : index.toNat = id.shifted) :
    ∃ c, segment? index = some c ∧ c.toNat = id.segment := by
  obtain ⟨hlow, -⟩ := id.log2_shifted
  have hlog := toNat_firstLog
  have hwidth : (64 : BitVec 32).toNat = 64 := rfl
  have hone : (1 : BitVec 32).toNat = 1 := rfl
  have hclz := Checked.log2_eq_clz (a := index) (by decide) (by rw [h]; exact id.shifted_ne_zero)
  rw [h] at hclz
  rw [firstSegmentLog] at hlow
  obtain ⟨zeros, hzeros, hzeros'⟩ := Checked.resize_eq (m := 32) (a := index.clz) (by omega)
  obtain ⟨last, hlast, hlast'⟩ := Checked.sub_eq (a := (64 : BitVec 32)) (b := 1) (by omega)
  obtain ⟨log, hfound, hfound'⟩ := Checked.sub_eq (a := last) (b := zeros) (by omega)
  obtain ⟨segment, hsegment, hsegment'⟩ := Checked.sub_eq (a := log) (b := firstLog) (by omega)
  refine ⟨segment, ?_, ?_⟩
  · simp only [segment?, hzeros, hlast, hfound, hsegment, Option.bind_eq_bind, Option.bind_some]
  · rw [SlotId.segment, firstSegmentLog]
    omega

/-- The segment and the offset of a slot are found without a word that does not fit. -/
theorem locate?_eq (id : SlotId) :
    ∃ s o, id.locate? = some (s, o) ∧ s.toNat = id.segment ∧ o.toNat = id.offset := by
  obtain ⟨index, hindex, hindex'⟩ := id.shifted?_eq
  obtain ⟨segment, hsegment, hsegment'⟩ := id.segment?_eq hindex'
  have hlog := toNat_firstLog
  have hlt := id.segment_lt
  rw [segmentCount] at hlt
  obtain ⟨s, hs, hs'⟩ := Checked.resize_eq (m := 64) (a := segment) (by omega)
  obtain ⟨log, hfound, hfound'⟩ := Checked.add_eq (a := segment) (b := firstLog) (by omega)
  obtain ⟨start, hstart, hstart'⟩ := Checked.pow_eq (n := 64) (show log.toNat < 64 by omega)
  have hsize : start.toNat = segmentSize id.segment := by
    rw [hstart', hfound', hsegment', hlog, segmentSize, Nat.one_shiftLeft, firstSegmentLog]
  have hle := id.segmentSize_le_shifted.1
  obtain ⟨offset, hoffset, hoffset'⟩ := Checked.sub_eq (a := index) (b := start) (by omega)
  refine ⟨s, offset, ?_, hs'.trans hsegment', ?_⟩
  · simp only [locate?, hindex, hsegment, hfound, hstart, hoffset, hs, Option.bind_eq_bind,
      Option.bind_some, Option.pure_def]
  · rw [hoffset', hindex', hsize, SlotId.offset]

theorem segmentLength?_eq {segment : BitVec 64} (h : segment.toNat < segmentCount) :
    ∃ c, segmentLength? segment = some c ∧ c.toNat = segmentSize segment.toNat := by
  have hlog := toNat_firstLog
  rw [segmentCount] at h
  obtain ⟨s, hs, hs'⟩ := Checked.resize_eq (m := 32) (a := segment) (by omega)
  obtain ⟨log, hfound, hfound'⟩ := Checked.add_eq (a := s) (b := firstLog) (by omega)
  obtain ⟨length, hlength, hlength'⟩ := Checked.pow_eq (n := 64) (show log.toNat < 64 by omega)
  refine ⟨length, ?_, ?_⟩
  · simp only [segmentLength?, hs, hfound, hlength, Option.bind_eq_bind, Option.bind_some]
  · rw [hlength', hfound', hs', hlog, segmentSize, Nat.one_shiftLeft, firstSegmentLog]

/-- Every slot is found at an offset in a segment that a pool has, and no word on the way fails to
fit. Its number counts the offsets before it and the segments in front of its own. Different slots
are in different places, in the order of their numbers, and every place that has a number is that of
a slot. -/
theorem slots_addressed :
    (∀ id : SlotId,
      (∃ s o length, id.locate? = some (s, o) ∧ s.toNat = id.segment ∧ o.toNat = id.offset ∧
        segmentLength? s = some length ∧ length.toNat = 32 * 2 ^ id.segment) ∧
      id.segment < segmentCount ∧ segmentSize id.segment = 32 * 2 ^ id.segment ∧
      id.offset < 32 * 2 ^ id.segment ∧ id.val - 1 = id.offset + slotsBefore id.segment) ∧
    (Function.Injective fun id : SlotId => (id.segment, id.offset)) ∧
    (∀ a b : SlotId,
      a.val < b.val ↔ toLex (a.segment, a.offset) < toLex (b.segment, b.offset)) ∧
    ∀ s o, o < 32 * 2 ^ s → o + slotsBefore s < UInt32.size - 1 →
      ∃ id : SlotId, id.segment = s ∧ id.offset = o := by
  refine ⟨?_, ?_, lt_iff_place_lt, ?_⟩
  · intro id
    obtain ⟨s, o, hlocate, hs, ho⟩ := id.locate?_eq
    obtain ⟨length, hfound, hlength⟩ :=
      segmentLength?_eq (show s.toNat < segmentCount from hs ▸ id.segment_lt)
    rw [hs, segmentSize_eq] at hlength
    have hoffset := id.offset_lt
    rw [segmentSize_eq] at hoffset
    exact ⟨⟨s, o, length, hlocate, hs, ho, hfound, hlength⟩, id.segment_lt, segmentSize_eq _,
      hoffset, id.val_eq⟩
  · intro a b hplace
    obtain ⟨hsegment, hoffset⟩ := Prod.mk.inj hplace
    exact eq_of_place hsegment hoffset
  · intro s o ho hnumber
    rw [← segmentSize_eq] at ho
    exact exists_at ho hnumber

/-- The last segment has more offsets than numbers; the last number is at offset 30. -/
theorem last_slot_addressed :
    30 < 32 * 2 ^ 27 ∧ 30 + slotsBefore 27 < UInt32.size - 1 ∧
      ∃ id : SlotId, id.segment = 27 ∧ id.offset = 30 := by
  have hlast : 30 + slotsBefore 27 < UInt32.size - 1 := by
    have hbefore := slotsBefore_add 27
    rw [segmentSize_eq, segmentSize_eq] at hbefore
    rw [UInt32.size]
    omega
  have hoffset : 30 < 32 * 2 ^ 27 := by decide
  obtain ⟨-, -, -, hall⟩ := slots_addressed
  exact ⟨hoffset, hlast, hall 27 30 hoffset hlast⟩

end SlotId

end JitIndex
