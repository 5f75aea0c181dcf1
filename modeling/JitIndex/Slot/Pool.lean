import JitIndex.Failure
import JitIndex.Journal
import JitIndex.Slot.Id

/-!
# Pools of slots

A pool holds one value per slot, in segments that are allocated when the first of their slots is
needed and that stay where they are from then on. A slot exists as soon as its segment does, and
starts out with a value that its owner chooses.

Main statements: `get?_isSome` says which slots exist, `get?_modify` that a change to one slot is
seen in that slot alone, and `ensure_cases` what making a slot does to the others.
-/

namespace JitIndex

universe u

/-- Slots in lazily allocated segments, each as long as its number demands. -/
structure Pool (α : Type u) where
  segments : Vector (Option (Array α)) segmentCount
  sized : ∀ (s : Nat) (h : s < segmentCount) (a : Array α),
    segments[s] = some a → a.size = segmentSize s

namespace Pool

variable {α : Type u}

def empty : Pool α :=
  ⟨Vector.replicate segmentCount none, fun s h a => by simp⟩

instance : Inhabited (Pool α) := ⟨empty⟩

/-- The segment that holds a slot, if it was allocated. -/
def segmentOf? (p : Pool α) (id : SlotId) : Option (Array α) :=
  have := id.segment_lt
  p.segments[id.segment]

/-- The value in a slot, if its segment was allocated. -/
def get? (p : Pool α) (id : SlotId) : Option α :=
  match p.segmentOf? id with
  | none => none
  | some a => a[id.offset]?

/-- Changes the value in a slot; a slot that does not exist stays that way. The segment leaves
the pool for the time of the change, so that it is changed in place. -/
def modify (p : Pool α) (id : SlotId) (f : α → α) : Pool α :=
  match h : p.segmentOf? id with
  | none => p
  | some a =>
    { segments := (p.segments.set id.segment none id.segment_lt).set id.segment
        (some (a.modify id.offset f)) id.segment_lt
      sized := by
        intro s hs b hb
        rw [Vector.set_set, Vector.getElem_set] at hb
        split at hb
        · rename_i heq
          have hb := Option.some.inj hb
          subst heq
          rw [← hb, Array.size_modify]
          exact p.sized id.segment id.segment_lt a h
        · exact p.sized s hs b hb }

/-- Allocates the segment that holds a slot, unless it is there, with the given values in the
order of its offsets. The answer is the number of slots that came into being. -/
def ensure (p : Pool α) (host : Host) (id : SlotId) (init : Nat → α) :
    Except Failure Nat × Pool α × Host :=
  match p.segmentOf? id with
  | some _ => (.ok 0, p, host)
  | none =>
    let slots := segmentSize id.segment
    match host.request slots with
    | (false, host) => (.error .allocation, p, host)
    | (true, host) =>
      let filled : Pool α :=
        { segments := p.segments.set id.segment (some (Array.ofFn fun i : Fin slots => init i))
            id.segment_lt
          sized := by
            intro s hs b hb
            rw [Vector.getElem_set] at hb
            split at hb
            · rename_i heq
              rw [← Option.some.inj hb, Array.size_ofFn, ← heq]
            · exact p.sized s hs b hb }
      (.ok slots, filled, host.note (.segmentAdded id.segment slots))

/-- Gives every segment back to the allocator, in order. -/
def free (p : Pool α) (host : Host) : Host :=
  p.segments.toList.foldl
    (fun host segment =>
      match segment with
      | none => host
      | some a => host.note (.freed a.size))
    host

/-- Two segments that are one hold one value for a slot. -/
theorem get?_congr {p q : Pool α} {id : SlotId} (h : p.segmentOf? id = q.segmentOf? id) :
    p.get? id = q.get? id := by
  simp only [get?, h]

/-- A slot exists exactly when its segment does. -/
theorem get?_isSome (p : Pool α) (id : SlotId) :
    (p.get? id).isSome = (p.segmentOf? id).isSome := by
  unfold get?
  split
  · rename_i h
    simp [h]
  · rename_i a h
    have hsize := p.sized id.segment id.segment_lt a h
    have := id.offset_lt
    simp [h, hsize, this]

theorem segmentOf?_modify (p : Pool α) (id other : SlotId) (f : α → α) :
    (p.modify id f).segmentOf? other =
      if id.segment = other.segment then
        (p.segmentOf? other).map (·.modify id.offset f)
      else
        p.segmentOf? other := by
  unfold modify
  split
  · rename_i h
    split
    · rename_i hseg
      have hother : p.segmentOf? other = none := by simpa only [segmentOf?, hseg] using h
      simp [hother]
    · rfl
  · rename_i a h
    split
    · rename_i hseg
      have hother : p.segmentOf? other = some a := by simpa only [segmentOf?, hseg] using h
      rw [hother]
      simp [segmentOf?, hseg]
    · rename_i hseg
      simp [segmentOf?, hseg]

/-- A change to one slot is seen in that slot, and in no other. -/
theorem get?_modify (p : Pool α) (id other : SlotId) (f : α → α) :
    (p.modify id f).get? other = if id = other then (p.get? other).map f else p.get? other := by
  unfold get?
  rw [segmentOf?_modify]
  by_cases hseg : id.segment = other.segment
  · rw [if_pos hseg]
    cases p.segmentOf? other with
    | none => simp
    | some a =>
      show (a.modify id.offset f)[other.offset]? = _
      rw [Array.getElem?_modify]
      by_cases hoff : id.offset = other.offset
      · rw [if_pos hoff, if_pos (SlotId.eq_of_place hseg hoff)]
      · rw [if_neg hoff, if_neg fun heq => hoff (by rw [heq])]
  · rw [if_neg hseg, if_neg fun heq => hseg (by rw [heq])]

/-- Making a slot fails without a trace in the pool, or leaves every slot as it was and the new one
in being. -/
theorem ensure_cases (p : Pool α) (host : Host) (id : SlotId) (init : Nat → α) :
    (∃ host', p.ensure host id init = (.error .allocation, p, host')) ∨
      ∃ n p' host', p.ensure host id init = (.ok n, p', host') ∧ (p'.get? id).isSome ∧
        ∀ other, (p.get? other).isSome → p'.get? other = p.get? other := by
  unfold ensure
  split
  · rename_i a h
    refine Or.inr ⟨0, p, host, rfl, ?_, fun _ _ => rfl⟩
    rw [get?_isSome, h]
    rfl
  · rename_i h
    dsimp only
    split
    · exact Or.inl ⟨_, rfl⟩
    · refine Or.inr ⟨_, _, _, rfl, ?_, fun other hother => get?_congr ?_⟩
      · rw [get?_isSome]
        simp [segmentOf?]
      · have hseg : id.segment ≠ other.segment := by
          intro heq
          rw [get?_isSome] at hother
          have hnone : p.segmentOf? other = none := by simpa only [segmentOf?, heq] using h
          simp [hnone] at hother
        simp [segmentOf?, hseg]

end Pool

end JitIndex
