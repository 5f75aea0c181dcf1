import JitIndex.Proofs.SkipList.Alloc
import JitIndex.Proofs.Slot.Keeping

/-!
# Room for another node

A node can be made exactly if there is room for it (`Laid.alloc_ok_iff`): if
some slot is free, or else if slot ids are left and the memory of the next one
is there or is granted. A slot is handed out anew only if none is free, so
nothing but the lack of a free slot makes a list grow (`alloc_used`).
-/

namespace JitIndex

universe u

variable {α : Type u}

namespace SkipList

/-- There is room for another node: in a free slot, or in the slot that is handed out next. -/
def HasRoom (l : SkipList α) (host : Host) : Prop :=
  l.free.isSome ∨ ∃ id, SlotId.nth? l.used = some id ∧ ((l.node? id).isSome ∨
    host.allocator.refuses host.requests (segmentSize id.segment) = false)

theorem val_nth? {rank : Nat} {id : SlotId} (h : SlotId.nth? rank = some id) :
    id.val = rank + 1 := by
  unfold SlotId.nth? at h
  split at h
  · rw [← Option.some.inj h]
  · cases h

variable [Inhabited α] {l : SkipList α} {host : Host} {key : Addr} {payload : α} {id : SlotId}

/-- A free slot is used again, and only if there is none another slot is handed out. -/
theorem claim_used (h : (l.claim host).1 = .ok id) :
    (l.free = some id ∧ (l.claim host).2.1.used = l.used) ∨
      l.free = none ∧ id.val = l.used + 1 ∧ (l.claim host).2.1.used = l.used + 1 := by
  unfold claim at h ⊢
  cases hfree : l.free with
  | some first =>
      simp only [hfree] at h ⊢
      cases hnode : l.node? first with
      | none => simp [hnode] at h
      | some n => simp_all
  | none =>
      simp only [hfree] at h ⊢
      cases hnth : SlotId.nth? l.used with
      | none => simp [hnth] at h
      | some next =>
          have hval := val_nth? hnth
          simp only [hnth] at h ⊢
          rcases hensure : l.nodes.ensure host next fun _ => Node.blank with ⟨_ | n, nodes, host'⟩
          · simp [hensure] at h
          · simp_all

theorem alloc_used (h : (l.alloc host key payload).1 = .ok id) :
    (l.free = some id ∧ (l.alloc host key payload).2.1.used = l.used) ∨
      l.free = none ∧ id.val = l.used + 1 ∧ (l.alloc host key payload).2.1.used = l.used + 1 := by
  unfold alloc at h ⊢
  rcases hclaim : l.claim host with ⟨_ | claimed, c, host'⟩
  · simp [hclaim] at h
  · simp only [hclaim, Except.ok.injEq] at h ⊢
    have hok : (l.claim host).1 = .ok id := by rw [hclaim, h]
    have hused := claim_used hok
    rwa [hclaim] at hused

theorem alloc_ok_iff_claim :
    (∃ id, (l.alloc host key payload).1 = .ok id) ↔ ∃ id, (l.claim host).1 = .ok id := by
  unfold alloc
  rcases l.claim host with ⟨_ | id, c, host'⟩ <;> simp

/-- A node can be made exactly if there is room for it. -/
theorem Laid.alloc_ok_iff {y : Layout α} (hlaid : Laid l y) :
    (∃ id, (l.alloc host key payload).1 = .ok id) ↔ l.HasRoom host := by
  rw [alloc_ok_iff_claim]
  unfold claim HasRoom
  cases hfree : l.free with
  | some first =>
      -- what is on the free chain is there
      have hhead := hlaid.free.link_eq_head?
      rw [show chainOf l.free _ none = l.free from rfl, hfree] at hhead
      have hmem : first ∈ y.slots := by
        simp [Layout.slots, List.mem_of_mem_head? hhead.symm]
      obtain ⟨n, hn⟩ := Option.isSome_iff_exists.mp (hlaid.present _ (hlaid.mem_slots.mp hmem))
      simp [hn]
  | none =>
      cases SlotId.nth? l.used with
      | none => simp
      | some next =>
          have hensure := l.nodes.ensure_ok_iff host next fun _ => (.blank : Node α)
          simp only [Option.isSome_none, Bool.false_eq_true, false_or, Option.some.injEq,
            exists_eq_left']
          rw [node?, ← hensure]
          rcases l.nodes.ensure host next fun _ => Node.blank with ⟨_ | n, nodes, host'⟩ <;> simp

end SkipList

end JitIndex
