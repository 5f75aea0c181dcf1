import JitIndex.Proofs.SkipList.Accounting

/-!
# The levels of a list

A skip list is sixteen chains in one pool. On every level, the links lead from
the head through the linked nodes that are taller than the level, in the order
of their keys, and no further; a search for a key leaves each level behind the
last of them before the key (`SkipList.Runs`). So a node that is unlinked is
found behind the site before it on every level that it is on
(`SkipList.LeadsTo`).

Which nodes are linked is not asked of the list but written down from its
answers, in a `Roster`. The layout has the same nodes (`Enrolled`), and where
a layout puts nodes the levels run through them (`Laid.leveled`). Links above
the height of a node may be left over from another node that was in its slot;
no level comes to them.
-/

namespace JitIndex

open SkipList (Layout Entry Laid)

namespace SkipList

universe u

variable {α : Type u}

/-- The site of the last entry before a key, which is the head if there is none. -/
def lastBefore (es : List (Entry α)) (key : Addr) : Site :=
  (es.filter fun e => e.key < key).getLast?.map (·.id)

/-- A level runs through some entries. -/
structure Runs (l : SkipList α) (level : Nat) (es : List (Entry α)) : Prop where
  /-- Its links lead from the head through their slots, and end. -/
  visits : Visits (fun s => l.next s level) none (ids es)
  sorted : Sorted es
  once : (ids es).Nodup
  predecessors : ∀ key, (l.predecessors key)[level]? = some (lastBefore es key)

/-- On a level, the site before a node leads to it, also after the node was taken out of the levels
above. -/
def LeadsTo (l : SkipList α) (level : Nat) (e : Entry α) : Prop :=
  ∃ site, (l.predecessors e.key)[level]? = some site ∧ l.next site level = some e.id ∧
    (l.detach e.id (level + 1)
      (((l.predecessors e.key).take (l.heightOf e.id)).drop (level + 1))).next site level =
        some e.id

/-- The levels of a list run through some nodes. -/
structure Leveled (l : SkipList α) (nodes : List (Entry α)) : Prop where
  held : ∀ e ∈ nodes, l.entry? e.id = some e
  tall : ∀ e ∈ nodes, 1 ≤ l.heightOf e.id ∧ l.heightOf e.id ≤ maxHeight
  runs : ∀ level < maxHeight, ∃ es, l.Runs level es ∧
    ∀ e, e ∈ es ↔ e ∈ nodes ∧ level < l.heightOf e.id
  leadsTo : ∀ e ∈ nodes, ∀ level < l.heightOf e.id, l.LeadsTo level e

namespace Laid

variable {l : SkipList α} {y : Layout α}

theorem getElem?_predecessors (h : Laid l y) (key : Addr) {level : Nat}
    (hlevel : level < maxHeight) : (l.predecessors key)[level]? =
      some (l.onLevel level (y.linked.filter fun e => e.key < key)).getLast? := by
  rw [h.predecessors_eq, List.getElem?_map, List.getElem?_range hlevel, Option.map_some]

theorem runs (h : Laid l y) {level : Nat} (hlevel : level < maxHeight) :
    l.Runs level (y.linked.filter fun e => level < l.heightOf e.id) where
  visits := h.levels level hlevel
  sorted := h.sorted.sublist List.filter_sublist
  once := ((List.filter_sublist.map _).trans (linked_sublist y)).nodup h.nodup
  predecessors key := by
    rw [h.getElem?_predecessors key hlevel, lastBefore, onLevel, ids_getLast?, List.filter_filter,
      List.filter_filter]
    simp only [Bool.and_comm]

/-- Taking a node out of the levels above does not touch the link that leads to it. -/
theorem leadsTo (h : Laid l y) {e : Entry α} (he : e ∈ y.linked) {level : Nat}
    (hlevel : level < l.heightOf e.id) : l.LeadsTo level e := by
  obtain ⟨-, htall⟩ := h.tall e (List.mem_append_right _ he)
  have hlow : level < maxHeight := Nat.lt_of_lt_of_le hlevel htall
  have hsplit := split_at_key e.key h.sorted
  rw [find?_key h.sorted he] at hsplit
  have hnext := h.next_getLast? hsplit hlow
  rw [Option.toList_some, List.singleton_append, onLevel_cons, if_pos hlevel] at hnext
  refine ⟨_, h.getElem?_predecessors e.key hlow, hnext, ?_⟩
  have habove : ((l.predecessors e.key).take (l.heightOf e.id)).drop (level + 1) =
      (List.range' (level + 1) (l.heightOf e.id - (level + 1))).map fun v =>
        (l.onLevel v (y.linked.filter fun f => f.key < e.key)).getLast? := by
    rw [h.take_predecessors e.key htall, ← List.map_drop, List.drop_range', Nat.mul_one,
      Nat.zero_add]
  rw [habove, next_detach (h.stands_getLast? hsplit) _ _ _ _ _ (by omega), if_neg (by omega)]
  exact hnext

theorem leveled (h : Laid l y) {nodes : List (Entry α)} (hnodes : ∀ e, e ∈ nodes ↔ e ∈ y.linked) :
    l.Leveled nodes where
  held e he := h.held e (linked_sub y e ((hnodes e).mp he))
  tall e he := h.tall e (List.mem_append_right _ ((hnodes e).mp he))
  runs level hlevel := by
    refine ⟨_, h.runs hlevel, fun e => ?_⟩
    rw [List.mem_filter, hnodes, decide_eq_true_iff]
  leadsTo e he level hlevel := h.leadsTo ((hnodes e).mp he) hlevel

end Laid

end SkipList

namespace ListSession

/-! ## Which nodes are linked -/

/-- The nodes that a list was asked for, written down from outside. -/
structure Roster where
  /-- Made and not linked since, the last one first. -/
  waiting : List (Entry Payload) := []
  /-- Linked, and neither unlinked nor replaced since, the last one first. -/
  linked : List (Entry Payload) := []

/-- What an answer changes in a roster. A node takes the place of the one with its key. -/
def Roster.enter (r : Roster) : Operation → Reply → Roster
  | .alloc key payload, .made node => { r with waiting := ⟨node.id, key, payload⟩ :: r.waiting }
  | .link n, .unlinked _ =>
    match r.waiting.find? fun e => e.id.val == n with
    | none => r
    | some e =>
      { waiting := r.waiting.filter fun f => f.id != e.id
        linked := e :: r.linked.filter fun f => f.key != e.key }
  | .unlink key, .unlinked _ => { r with linked := r.linked.filter fun e => e.key != key }
  | _, _ => r

/-- The roster of a run. -/
def roster (s : ListSession) (r : Roster) : List Operation → Roster
  | [] => r
  | op :: ops => (s.perform op).2.roster (r.enter op (s.perform op).1) ops

/-- The list has the nodes of the roster. -/
structure Enrolled (s : ListSession) (r : Roster) (y : Layout Payload) : Prop where
  sound : Sound s y
  waiting : r.waiting = y.pending
  linked : ∀ e, e ∈ r.linked ↔ e ∈ y.linked

namespace Enrolled

variable {s s' : ListSession} {r : Roster} {y y' : Layout Payload}

theorem of_step (h : Enrolled s r y) {op : Operation} {reply : Reply}
    (hstep : y.Step op.command reply y') (hsound : Sound s' y') :
    Enrolled s' (r.enter op reply) y' := by
  cases op with
  | alloc key payload =>
      cases hstep with
      | allocRefused => exact ⟨hsound, h.waiting, h.linked⟩
      | alloc hoffers => exact ⟨hsound, congrArg (_ :: ·) h.waiting, h.linked⟩
  | link n =>
      cases hstep with
      | linkNone hnone => exact ⟨hsound, h.waiting, h.linked⟩
      | @link _ e hfind =>
          have henter : r.enter (.link n) (.unlinked (y.linked.find? fun f => f.key == e.key)) =
              { waiting := y.pending.filter fun f => f.id != e.id
                linked := e :: r.linked.filter fun f => f.key != e.key } := by
            simp only [Roster.enter, h.waiting, hfind]
          rw [henter]
          refine ⟨hsound, rfl, fun f => ?_⟩
          have hothers := congrArg (f ∈ ·) (SkipList.filter_ne_eq h.sound.laid.sorted e.key)
          simp only [Layout.link, List.mem_cons, List.mem_append, List.mem_filter, h.linked] at *
          rw [hothers]
          exact or_left_comm
  | unlink key =>
      cases hstep
      refine ⟨hsound, h.waiting, fun e => ?_⟩
      simp only [Roster.enter, Layout.unlink, List.mem_filter, h.linked]
  | sealRetired => cases hstep <;> exact ⟨hsound, h.waiting, h.linked⟩
  | reclaim | orphan | drain =>
      cases hstep
      exact ⟨hsound, h.waiting, h.linked⟩

theorem operate (h : Enrolled s r y) (ops : List Operation) :
    ∃ y', Enrolled (s.operate ops) (s.roster r ops) y' := by
  induction ops generalizing s r y with
  | nil => exact ⟨y, h⟩
  | cons op ops ih =>
      obtain ⟨y₁, hstep, hsound⟩ := h.sound.step op.command
      exact ih (h.of_step hstep hsound)

end Enrolled

/-- Whatever was done to a list, its levels run through the nodes that are linked. -/
theorem operate_leveled (seed : UInt64) (allocator : Allocator) (ops : List Operation) :
    ((start seed allocator).operate ops).list.Leveled
      ((start seed allocator).roster {} ops).linked := by
  have hstart : Enrolled (start seed allocator) {} {} :=
    ⟨start_sound seed allocator, rfl, fun _ => Iff.rfl⟩
  obtain ⟨y, h⟩ := hstart.operate ops
  exact h.sound.laid.leveled h.linked

end ListSession

end JitIndex
