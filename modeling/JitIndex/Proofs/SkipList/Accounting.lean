import JitIndex.Proofs.SkipList.Room
import JitIndex.Proofs.SkipList.Running

/-!
# Where the slots of a list are

The writer of a list handles its nodes one at a time: it makes one, links it,
unlinks it, and moves what is unlinked from stage to stage. An `Account` is
written from the answers alone. `Balanced` compares it with the list:

- every slot handed out is in one place, once, and the chains of the list run
  through the places (`Balanced.once`, `Balanced.everySlot`);
- the releases of a slot are, in order, its removals, but for the one whose
  node is still parked (`Paired`). So a node is released at most once for each
  time it was removed, with what it held then;
- a slot is handed out for the first time only if none is free, so their
  number is the most that were ever taken at once (`Balanced.peak`).

The argument follows the layout. Each step moves entries from one place of it
to another, and `Paired` only cares for what enters and leaves the parked ones.
-/

namespace JitIndex

open SkipList (Layout Entry Laid Visits chainOf ids)

namespace SkipList

/-- The entries that were unlinked and not released. -/
def Layout.parked {α : Type} (y : Layout α) : List (Entry α) := y.retired ++ (y.sealed ++ y.orphans)

theorem Laid.nodup_parked {α : Type} {l : SkipList α} {y : Layout α} (h : Laid l y) :
    (ids y.parked).Nodup := by
  have hsub : y.parked.Sublist y.entries :=
    (List.sublist_append_right ..).trans (List.sublist_append_right ..)
  exact (hsub.map _).nodup h.nodup_ids

end SkipList

namespace ListSession

/-- What the writer of a list does to nodes, one at a time. -/
inductive Operation where
  | alloc (key : Addr) (payload : Payload)
  | link (id : Nat)
  | unlink (key : Addr)
  | sealRetired
  | reclaim
  | orphan
  | drain

def Operation.command : Operation → Command
  | alloc key payload => .alloc key payload
  | link id => .link id
  | unlink key => .unlink key
  | sealRetired => .sealRetired
  | reclaim => .reclaim
  | orphan => .orphan
  | drain => .drain

/-- The answer to an operation, and the session after it. -/
def perform (s : ListSession) (op : Operation) : Reply × ListSession := s.step op.command

def operate (s : ListSession) (ops : List Operation) : ListSession :=
  ops.foldl (fun s op => (s.perform op).2) s

/-- What was answered so far, written down from outside. -/
structure Account where
  /-- The slots that were made and not linked, the last one first. -/
  waiting : List SlotId := []
  /-- What nodes held when they were taken out of the list, in order. -/
  removed : List (Entry Payload) := []
  /-- What nodes held when they were released, in order. -/
  released : List (Entry Payload) := []
  /-- The slots that the list let go of. -/
  drained : List SlotId := []
  /-- How many slots are taken: they were claimed for a node and have not become free since. -/
  taken : Nat := 0
  /-- The most slots that were taken at once. -/
  peak : Nat := 0

namespace Account

/-- What an answer adds to an account. -/
def enter (a : Account) : Operation → Reply → Account
  | .alloc .., .made node => { a with waiting := node.id :: a.waiting, taken := a.taken + 1 }
  | .link n, .unlinked replaced =>
    { a with
      waiting := a.waiting.filter fun id => id.val != n
      removed := a.removed ++ replaced.toList }
  | .unlink _, .unlinked entry => { a with removed := a.removed ++ entry.toList }
  | .reclaim, .released es =>
    { a with released := a.released ++ es, taken := a.taken - es.length }
  | .drain, .released es =>
    { a with released := a.released ++ es, drained := ids es ++ a.drained }
  | _, _ => a

/-- Another operation was answered. -/
def record (a : Account) (op : Operation) (reply : Reply) : Account :=
  { a.enter op reply with peak := max a.peak (a.enter op reply).taken }

end Account

/-- The account of a run. -/
def account (s : ListSession) (a : Account) : List Operation → Account
  | [] => a
  | op :: ops => (s.perform op).2.account (a.record op (s.perform op).1) ops

/-! ## Removals and releases -/

/-- Slot by slot, what was released is what was removed, in the same order, up to what is still
parked. -/
def Paired (removed released parked : List (Entry Payload)) : Prop :=
  ∀ id : SlotId, removed.filter (fun e => e.id == id) =
    released.filter (fun e => e.id == id) ++ parked.filter fun e => e.id == id

namespace Paired

variable {removed released parked parked' es : List (Entry Payload)}

/-- At most one entry of a slot is parked, so the order of the parked ones makes no difference. -/
theorem perm (h : Paired removed released parked) (hperm : parked'.Perm parked)
    (hnd : (ids parked').Nodup) : Paired removed released parked' := by
  intro id
  rw [h id]
  congr 1
  have hfilter := hperm.filter fun e => e.id == id
  have hle : (parked'.filter fun e => e.id == id).length ≤ 1 := by
    have hone := List.nodup_iff_count_le_one.mp hnd id
    rwa [ids, List.count_eq_countP, List.countP_map, List.countP_eq_length_filter] at hone
  rcases hshape : parked'.filter (fun e => e.id == id) with _ | ⟨e, _ | ⟨f, rest⟩⟩
  · rw [hshape] at hfilter ⊢
    exact hfilter.symm.eq_nil
  · rw [hshape] at hfilter ⊢
    exact List.perm_singleton.mp hfilter.symm
  · rw [hshape] at hle
    simp at hle

theorem remove (h : Paired removed released parked) (es : List (Entry Payload)) :
    Paired (removed ++ es) released (parked ++ es) := by
  intro id
  rw [List.filter_append, h id, List.filter_append, List.append_assoc]

theorem release (h : Paired removed released (es ++ parked)) :
    Paired removed (released ++ es) parked := by
  intro id
  rw [h id, List.filter_append, List.filter_append, List.append_assoc]

end Paired

/-! ## One operation -/

/-- A node is made in the slot that became free last, and in a new one only if none is free. A
refusal leaves the list and the waiting nodes alone. -/
def Makes (s : ListSession) (y : Layout Payload) (key : Addr) (payload : Payload) : Prop :=
  (∃ host, s.perform (.alloc key payload) = (.failed .allocation, { s with host })) ∨
    ∃ node s', s.perform (.alloc key payload) = (.made node, s') ∧
      (y.free.head? = some node.id ∧ s'.list.used = s.list.used ∨
        y.free = [] ∧ node.id.val = s.list.used + 1 ∧ s'.list.used = s.list.used + 1)

namespace Sound

variable {s : ListSession} {y : Layout Payload}

theorem makes (h : Sound s y) (key : Addr) (payload : Payload) : Makes s y key payload := by
  unfold Makes perform
  rw [Operation.command, ListSession.step]
  rcases h.alloc_sound key payload with ⟨host, heq⟩ | ⟨id, list, host, heq, -, -⟩
  · rw [heq]
    exact Or.inl ⟨host, rfl⟩
  · have hused := SkipList.alloc_used (congrArg Prod.fst heq)
    have hfree : s.list.free = y.free.head? := h.laid.free.link_eq_head?
    rw [heq] at hused ⊢
    refine Or.inr ⟨_, _, rfl, ?_⟩
    rcases hused with ⟨hfirst, hsame⟩ | ⟨hnone, hnew, hmore⟩
    · exact Or.inl ⟨hfree.symm.trans hfirst, hsame⟩
    · exact Or.inr ⟨List.head?_eq_none_iff.mp (hfree.symm.trans hnone), hnew, hmore⟩

/-- Only making a node hands a slot out. -/
theorem perform_used (h : Sound s y) {op : Operation}
    (hop : ∀ key payload, op ≠ .alloc key payload) :
    (s.perform op).2.list.used = s.list.used := by
  unfold perform
  cases op with
  | alloc key payload => exact absurd rfl (hop key payload)
  | link n =>
      rw [Operation.command, ListSession.step, h.find?_pending]
      cases hfind : y.pending.find? fun e => e.id.val == n with
      | none => rfl
      | some e =>
          obtain ⟨list, hlink, -, -, hused⟩ := h.laid.link_eq (List.mem_of_find?_eq_some hfind)
          simpa only [Option.map_some, hlink] using hused
  | unlink key =>
      obtain ⟨list, heq, -, -, hused⟩ := h.laid.unlink_eq key
      rw [Operation.command, ListSession.step, heq]
      exact hused
  | sealRetired =>
      rw [Operation.command, ListSession.step]
      split <;> rfl
  | reclaim =>
      obtain ⟨list, heq, -, -, hused⟩ := h.laid.reclaim_eq
      rw [Operation.command, ListSession.step, heq]
      exact hused
  | orphan => exact h.laid.orphan_laid.2.2
  | drain =>
      obtain ⟨list, heq, -, -, hused⟩ := h.laid.drain_eq
      rw [Operation.command, ListSession.step, heq]
      exact hused

end Sound

/-- The account of a session is right. -/
structure Reckoned (s : ListSession) (a : Account) (y : Layout Payload) : Prop where
  sound : Sound s y
  waiting : ids y.pending = a.waiting
  drained : y.gone = a.drained
  paired : Paired a.removed a.released y.parked
  /-- Every slot that was handed out is taken or free. -/
  taken : a.taken + y.free.length = s.list.used
  slots : y.slots.length = s.list.used
  peak : a.peak = s.list.used
  inRange : s.list.used < UInt32.size

theorem start_reckoned (seed : UInt64) (allocator : Allocator) :
    Reckoned (start seed allocator) {} {} :=
  ⟨start_sound seed allocator, rfl, rfl, fun _ => rfl, rfl, rfl, rfl,
    show 0 < UInt32.size by decide⟩

namespace Reckoned

variable {s s' : ListSession} {a : Account} {y y' : Layout Payload}

theorem taken_eq (h : Reckoned s a y) : a.taken = (ids y.entries ++ y.gone).length := by
  have htaken := h.taken
  have hslots := h.slots
  simp only [Layout.slots, List.length_append] at hslots ⊢
  omega

/-- Of an operation that only moves slots about, it matters who waits, what left the stages, and
how many slots became free. -/
theorem moved (h : Reckoned s a y) (hsound : Sound s' y') (hused : s'.list.used = s.list.used)
    {b : Account} (hwaiting : ids y'.pending = b.waiting) (hdrained : y'.gone = b.drained)
    (hpaired : Paired b.removed b.released y'.parked)
    (htaken : b.taken + y'.free.length = s.list.used) :
    Reckoned s' { b with peak := max a.peak b.taken } y' where
  sound := hsound
  waiting := hwaiting
  drained := hdrained
  paired := hpaired
  taken := htaken.trans hused.symm
  slots := by
    have hperm : y'.slots.Perm y.slots :=
      (List.perm_ext_iff_of_nodup hsound.laid.nodup h.sound.laid.nodup).mpr fun id => by
        rw [hsound.laid.mem_slots, h.sound.laid.mem_slots, hused]
    rw [hperm.length_eq, h.slots, hused]
  peak := by
    have hpeak := h.peak
    show max a.peak b.taken = s'.list.used
    omega
  inRange := hused ▸ h.inRange

theorem alloc (h : Reckoned s a y) (key : Addr) (payload : Payload) :
    ∃ y', y.Step (.alloc key payload) (s.perform (.alloc key payload)).1 y' ∧
      Reckoned (s.perform (.alloc key payload)).2
        (a.record (.alloc key payload) (s.perform (.alloc key payload)).1) y' := by
  obtain ⟨y', hstep, hsound⟩ := h.sound.step (.alloc key payload)
  change y.Step (.alloc key payload) (s.perform (.alloc key payload)).1 y' at hstep
  change Sound (s.perform (.alloc key payload)).2 y' at hsound
  refine ⟨y', hstep, ?_⟩
  rcases h.sound.makes key payload with ⟨host, heq⟩ | ⟨node, s', heq, hused⟩
  · rw [heq] at hstep hsound ⊢
    cases hstep
    exact h.moved hsound rfl h.waiting h.drained h.paired h.taken
  · rw [heq] at hstep hsound ⊢
    have htaken := h.taken
    have hslots := h.slots
    have hpeak := h.peak
    -- a slot that was free is taken, or one more slot was handed out
    have hcount : s'.list.used + y.free.length = s.list.used + y.free.tail.length + 1 ∧
        s.list.used ≤ s'.list.used ∧ a.taken + 1 ≤ s'.list.used ∧ s'.list.used < UInt32.size ∧
        max s.list.used (a.taken + 1) = s'.list.used := by
      have hrange := h.inRange
      rcases hused with ⟨hfirst, hsame⟩ | ⟨hnone, hnew, hmore⟩
      · obtain ⟨rest, hfree⟩ := List.head?_eq_some_iff.mp hfirst
        simp only [hfree, List.length_cons, List.tail_cons] at htaken ⊢
        omega
      · have hlt := node.id.lt
        simp only [hnone, List.length_nil, List.tail_nil] at htaken ⊢
        omega
    cases hstep with
    | alloc hoffers =>
        refine ⟨hsound, congrArg (node.id :: ·) h.waiting, h.drained, h.paired, ?_, ?_, ?_, ?_⟩
        · show a.taken + 1 + y.free.tail.length = s'.list.used
          omega
        · simp only [Layout.slots, Layout.entries, Layout.make, ids, List.length_append,
            List.length_map, List.length_cons] at hslots ⊢
          omega
        · show max a.peak (a.taken + 1) = s'.list.used
          omega
        · exact hcount.2.2.2.1

theorem paired_perm (h : Reckoned s a y) {es : List (Entry Payload)} (hperm : es.Perm y.parked) :
    Paired a.removed a.released es :=
  h.paired.perm hperm ((hperm.map _).nodup_iff.mpr h.sound.laid.nodup_parked)

/-- Unlinking a node is a removal. -/
theorem paired_unlink (h : Reckoned s a y) (hsound : Sound s' y') {key : Addr}
    (hparked : y'.parked = (y.unlink key).parked) :
    Paired (a.removed ++ (y.linked.find? fun e => e.key == key).toList) a.released y'.parked := by
  refine (h.paired.remove _).perm ?_ hsound.laid.nodup_parked
  rw [hparked, Layout.parked, Layout.unlink, List.append_assoc]
  exact List.perm_append_comm

theorem of_step (h : Reckoned s a y) {op : Operation} {reply : Reply}
    (hop : ∀ key payload, op ≠ .alloc key payload) (hstep : y.Step op.command reply y')
    (hsound : Sound s' y') (hused : s'.list.used = s.list.used) :
    Reckoned s' (a.record op reply) y' := by
  cases op with
  | alloc key payload => exact absurd rfl (hop key payload)
  | link n =>
      cases hstep with
      | linkNone hnone => exact h.moved hsound hused h.waiting h.drained h.paired h.taken
      | @link _ e hfind =>
          refine h.moved hsound hused ?_ h.drained (h.paired_unlink hsound rfl) h.taken
          have hval : e.id.val = n := by simpa using List.find?_some hfind
          show ids (y.pending.filter fun f => f.id != e.id) = a.waiting.filter fun id => id.val != n
          rw [← h.waiting, ids, ids, List.filter_map]
          congr 1
          refine List.filter_congr fun f _ => ?_
          rw [Function.comp_apply, ← hval, Bool.eq_iff_iff, bne_iff_ne, bne_iff_ne]
          exact not_congr ⟨congrArg SlotId.val, SlotId.eq_of_val⟩
  | unlink key =>
      cases hstep
      exact h.moved hsound hused h.waiting h.drained (h.paired_unlink hsound rfl) h.taken
  | sealRetired =>
      cases hstep with
      | sealFault hsealed => exact h.moved hsound hused h.waiting h.drained h.paired h.taken
      | sealRetired hnone =>
          refine h.moved hsound hused h.waiting h.drained ?_ h.taken
          have hpaired := h.paired
          rwa [Layout.parked, hnone] at hpaired
  | reclaim =>
      cases hstep
      have htaken := h.taken
      have hle : y.sealed.length ≤ a.taken := by
        rw [h.taken_eq]
        simp only [ids, Layout.entries, List.length_append, List.length_map]
        omega
      refine h.moved hsound hused h.waiting h.drained ?_ ?_
      · exact (h.paired_perm (List.perm_append_comm_assoc y.sealed y.retired y.orphans)).release
      · show a.taken - y.sealed.length + ((ids y.sealed).reverse ++ y.free).length = s.list.used
        simp only [ids, List.length_append, List.length_reverse, List.length_map]
        omega
  | orphan =>
      cases hstep
      refine h.moved hsound hused h.waiting h.drained (h.paired_perm ?_) h.taken
      exact (List.reverse_perm _).append ((List.reverse_perm _).append_right _)
  | drain =>
      cases hstep
      refine h.moved hsound hused h.waiting ?_ ?_ h.taken
      · show ids y.orphans ++ y.gone = ids y.orphans ++ a.drained
        rw [h.drained]
      · have hperm : (y.orphans ++ (y.retired ++ y.sealed)).Perm y.parked := by
          rw [Layout.parked, ← List.append_assoc y.retired]
          exact List.perm_append_comm
        have hleft := (h.paired_perm hperm).release
        rwa [← List.append_nil y.sealed] at hleft

/-- Every operation moves slots as `Layout.Step` says, and the account stays right. -/
theorem perform (h : Reckoned s a y) (op : Operation) :
    ∃ y', y.Step op.command (s.perform op).1 y' ∧
      Reckoned (s.perform op).2 (a.record op (s.perform op).1) y' := by
  by_cases hop : ∀ key payload, op ≠ .alloc key payload
  · obtain ⟨y', hstep, hsound⟩ := h.sound.step op.command
    exact ⟨y', hstep, h.of_step hop hstep hsound (h.sound.perform_used hop)⟩
  · push Not at hop
    obtain ⟨key, payload, rfl⟩ := hop
    exact h.alloc key payload

theorem operate (h : Reckoned s a y) (ops : List Operation) :
    ∃ y', Reckoned (s.operate ops) (s.account a ops) y' := by
  induction ops generalizing s a y with
  | nil => exact ⟨y, h⟩
  | cons op ops ih =>
      obtain ⟨y₁, -, h₁⟩ := h.perform op
      exact ih h₁

end Reckoned

/-! ## The books balance -/

/-- The slots of a list are in the places that a layout says, and the account agrees with it. -/
structure Balanced (s : ListSession) (a : Account) (y : Layout Payload) : Prop where
  waiting : ids y.pending = a.waiting
  linked : Visits (fun site => s.list.next site 0) none (ids y.linked)
  retired : Visits (chainOf s.list.retired s.list.parkedAfter) none (ids y.retired)
  sealed : Visits (chainOf s.list.sealed s.list.parkedAfter) none (ids y.sealed)
  orphans : Visits (chainOf s.list.orphans s.list.parkedAfter) none (ids y.orphans)
  free : Visits (chainOf s.list.free fun id => s.list.next (some id) 0) none y.free
  drained : y.gone = a.drained
  /-- No slot is in two places, and no chain comes to a slot twice. -/
  once : y.slots.Nodup
  everySlot : ∀ id, id ∈ y.slots ↔ id.val ≤ s.list.used
  inRange : s.list.used < UInt32.size
  held : ∀ e ∈ y.entries, s.list.entry? e.id = some e
  paired : Paired a.removed a.released y.parked
  /-- What is taken is everything that is not free. -/
  taken : a.taken = (ids y.entries ++ y.gone).length
  peak : s.list.used = a.peak

theorem Reckoned.balanced {s : ListSession} {a : Account} {y : Layout Payload}
    (h : Reckoned s a y) : Balanced s a y where
  waiting := h.waiting
  linked := by
    have hlevel := h.sound.laid.levels 0 (by decide)
    rwa [h.sound.laid.onLevel_zero fun e he => he] at hlevel
  retired := h.sound.laid.retired
  sealed := h.sound.laid.sealed
  orphans := h.sound.laid.orphans
  free := h.sound.laid.free
  drained := h.drained
  once := h.sound.laid.nodup
  everySlot _ := h.sound.laid.mem_slots
  inRange := h.inRange
  held := h.sound.laid.held
  paired := h.paired
  taken := h.taken_eq
  peak := h.peak.symm

/-- After every run every slot is in its one place, every release is accounted for, and the next
operation moves slots from place to place as it should. -/
theorem run_balanced (seed : UInt64) (allocator : Allocator) (ops : List Operation) :
    let s := (start seed allocator).operate ops
    let a := (start seed allocator).account {} ops
    ∃ y, Balanced s a y ∧ (∀ key payload, Makes s y key payload) ∧
      ∀ op, ∃ y', y.Step op.command (s.perform op).1 y' ∧
        Balanced (s.perform op).2 (a.record op (s.perform op).1) y' := by
  intro s a
  obtain ⟨y, h⟩ := (start_reckoned seed allocator).operate ops
  refine ⟨y, h.balanced, h.sound.makes, fun op => ?_⟩
  obtain ⟨y', hstep, h'⟩ := h.perform op
  exact ⟨y', hstep, h'.balanced⟩

/-! ## Other commands -/

section

variable (s : ListSession)

theorem operate_append (ops ops' : List Operation) :
    s.operate (ops ++ ops') = (s.operate ops).operate ops' := List.foldl_append

/-- Inserting a node is making and linking it. -/
theorem insert_operates (key : Addr) : ∃ ops, (s.insert key).2 = s.operate ops := by
  unfold ListSession.insert
  rcases heq : s.list.alloc s.host key (selfPayload key) with ⟨f | id, list, host⟩
  · refine ⟨[.alloc key (selfPayload key)], ?_⟩
    simp only [operate, List.foldl_cons, List.foldl_nil, perform, Operation.command, step, heq]
  · refine ⟨[.alloc key (selfPayload key), .link id.val], ?_⟩
    simp [operate, perform, Operation.command, step, heq]

theorem insertMany_operates (key stride : Addr) (count : Nat) :
    ∃ ops, (s.insertMany key stride count).2.2 = s.operate ops := by
  induction count generalizing s key with
  | zero => exact ⟨[], rfl⟩
  | succ count ih =>
      obtain ⟨ops, hinsert⟩ := s.insert_operates key
      unfold insertMany
      rcases heq : s.insert key with ⟨_ | ⟨node, replaced⟩, s₁⟩ <;> rw [heq] at hinsert
      · exact ⟨ops, hinsert⟩
      · obtain ⟨ops', hrest⟩ := ih s₁ (key + stride)
        refine ⟨ops ++ ops', ?_⟩
        rw [operate_append, ← hinsert]
        exact hrest

theorem unlinkWhile_operates (choice : SkipList Payload → Option (Entry Payload)) (fuel : Nat) :
    ∃ ops, { s with list := (s.list.unlinkWhile choice fuel).2 } = s.operate ops := by
  induction fuel generalizing s with
  | zero => exact ⟨[], rfl⟩
  | succ fuel ih =>
      unfold SkipList.unlinkWhile
      cases hchoice : choice s.list with
      | none => exact ⟨[], rfl⟩
      | some e =>
          obtain ⟨ops, hrest⟩ := ih { s with list := (s.list.unlink e.key).2 }
          exact ⟨.unlink e.key :: ops, hrest⟩

/-- Whatever is asked of a list, it comes down to operations on one node at a time. -/
theorem run_operates (cs : List Command) : ∃ ops, s.run cs = s.operate ops := by
  induction cs generalizing s with
  | nil => exact ⟨[], rfl⟩
  | cons c cs ih =>
      have hstep : ∃ ops, (s.step c).2 = s.operate ops := by
        cases c with
        | alloc key payload => exact ⟨[.alloc key payload], rfl⟩
        | link n => exact ⟨[.link n], rfl⟩
        | insert key =>
            obtain ⟨ops, hinsert⟩ := s.insert_operates key
            refine ⟨ops, Eq.trans ?_ hinsert⟩
            unfold step
            dsimp only
            rcases s.insert key with ⟨_ | ⟨node, replaced⟩, s₁⟩ <;> rfl
        | insertMany key stride count => exact s.insertMany_operates key stride count
        | unlink key => exact ⟨[.unlink key], rfl⟩
        | unlinkAll => exact s.unlinkWhile_operates SkipList.first? s.list.count
        | get key => exact ⟨[], rfl⟩
        | floor key => exact ⟨[], rfl⟩
        | first => exact ⟨[], rfl⟩
        | keys => exact ⟨[], rfl⟩
        | sealRetired => exact ⟨[.sealRetired], rfl⟩
        | reclaim => exact ⟨[.reclaim], rfl⟩
        | orphan => exact ⟨[.orphan], rfl⟩
        | drain => exact ⟨[.drain], rfl⟩
      obtain ⟨ops, hops⟩ := hstep
      obtain ⟨ops', hrest⟩ := ih (s.step c).2
      refine ⟨ops ++ ops', ?_⟩
      rw [operate_append, ← hops]
      exact hrest

end

end ListSession

end JitIndex
