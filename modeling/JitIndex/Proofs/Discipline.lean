import JitIndex.Proofs.Session.Editing

/-!
# No assumption is ever broken

The writer relies on four things that nothing checks when it counts: mutations
do not nest, an epoch turns only into one that has drained, what was sealed is
released before more is sealed, and a node is replaced only by one with its
key. Where one of them fails a fault is written into the books. No move of a
session leaves a fault there (`Scene.Move.faultless`), so none of them ever
fails: in every operation, after every refusal, and whatever readers do.

What makes the moves possible is the order of epochs (`View.Orderly`), which
every session keeps; `Disciplined` is what it comes to between operations.

A list counts its nodes, and every time one is unlinked it takes one off. The
count is right in every list that is laid out (`Laid.counts`), and so in the
midst of an operation as well, where the writer goes from one to the next by
`Prune` and by making and linking a node (`Session.act_edited`).
-/

namespace JitIndex

open SkipList (Layout Entry Laid)

/-! ## Moves leave no faults -/

theorem Index.disposal_faultless (keep : Option SlotId) (released : List (Entry CodeRecord))
    (f : Fault) : Event.fault f ∉ disposal keep released := by
  simp [disposal]

theorem Index.arrival_faultless (code : Option (Entry CodeRecord)) (depth : Option (Entry Payload))
    (f : Fault) : Event.fault f ∉ arrival code depth := by
  simp [arrival]

theorem View.Move.faultless {v w : View} {es : List Event} (h : Move v es w) (f : Fault) :
    Event.fault f ∉ es := by
  cases h with
  | release keep hsealed hdrained => exact Index.disposal_faultless keep v.code.sealed f
  | turn hsealed => exact List.not_mem_nil
  | refuse table => simp
  | mutate hcode hdepth hserial => simp [Index.arrival_faultless]

namespace Scene

variable {a b : Scene} {es : List Event}

theorem Move.faultless (h : Move a es b) (f : Fault) : Event.fault f ∉ es := by
  cases h with
  | write hwriter hmove => exact hmove.faultless f
  | pin hversion => exact List.not_mem_nil
  | unpin hpin => exact List.not_mem_nil
  | leave hwriter hcode hdepth => exact List.not_mem_nil
  | dispose hwriter hpins => exact Index.disposal_faultless none a.view.code.orphans f

theorem Moves.faultless (h : Moves a es b) (f : Fault) : Event.fault f ∉ es := by
  induction h with
  | refl => exact List.not_mem_nil
  | tail _ hmove ih =>
      rw [List.mem_append]
      exact not_or.mpr ⟨ih, hmove.faultless f⟩

end Scene

/-! ## Counts -/

namespace SkipList

universe u

variable {α : Type u} [Inhabited α]

/-- A list counts its nodes. Its count is not zero when a node is unlinked, also not when the node
makes room for another one with its key. -/
structure Counted (l : SkipList α) : Prop where
  count : l.count = l.entries.length
  unlink : ∀ {key : Addr} {e : Entry α} {l' : SkipList α}, l.unlink key = (some e, l') →
    0 < l.count ∧ l.count = l'.count + 1
  link : ∀ {host host' : Host} {key : Addr} {payload : α} {id : SlotId} {l₁ l₂ : SkipList α}
    {old : Option (Entry α)}, l.alloc host key payload = (.ok id, l₁, host') →
    l₁.link id = (old, l₂) → l₁.count = l.count ∧ l₂.count + old.toList.length = l₁.count + 1 ∧
      ∀ e, old = some e → 0 < l₁.count ∧ e.key = key

theorem Laid.counts {l : SkipList α} {y : Layout α} (h : Laid l y) : Counted l where
  count := by rw [h.count, h.entries_eq]
  unlink := by
    intro key e l' hrun
    obtain ⟨_, heq, h', -, -⟩ := h.unlink_eq key
    obtain ⟨hfound, rfl⟩ := Prod.mk.inj (heq.symm.trans hrun)
    have hsplit := congrArg List.length (split_at_key key h.sorted)
    have hcount := h'.count
    have hbefore := h.count
    simp only [Layout.unlink, filter_ne_eq h.sorted, List.length_append] at hcount
    simp only [hfound, Option.toList_some, List.length_append, List.length_singleton] at hsplit
    omega
  link := by
    intro host host' key payload id l₁ l₂ old halloc hrun
    rcases h.alloc_cases host key payload with ⟨_, heq, -⟩ | ⟨_, _, _, heq, -, -, -, h₁, -⟩
    · cases heq.symm.trans halloc
    · cases heq.symm.trans halloc
      obtain ⟨_, hlink, h₂, -, -⟩ := h₁.link_eq (List.mem_cons_self ..)
      obtain ⟨rfl, rfl⟩ := Prod.mk.inj (hlink.symm.trans hrun)
      have hsplit := congrArg List.length (split_at_key key h.sorted)
      have hcount := h₂.count
      have hmade := h₁.count
      have hbefore := h.count
      simp only [Layout.link, Layout.make, List.length_append, List.length_cons]
        at hcount hmade hsplit
      refine ⟨hmade.trans hbefore.symm, ?_, fun e he => ?_⟩
      · show _ + (y.linked.find? fun f => f.key == key).toList.length = _
        omega
      · have he : (y.linked.find? fun f => f.key == key) = some e := he
        rw [he] at hsplit
        exact ⟨by rw [Option.toList_some, List.length_singleton] at hsplit; omega,
          ((find?_eq_some_iff_mem h.sorted).mp he).2⟩

end SkipList

namespace Session

/-! ## Between two operations -/

structure Disciplined (s : Session) : Prop where
  closed : s.index.gate.isOpen = false
  /-- What is sealed waits for the readers of the other epoch. -/
  busy : s.writer = true → ∀ e, s.index.sealedEpoch = some e → e = s.index.gate.epoch.other
  /-- While nothing is sealed every reader is pinned in the current epoch. -/
  idle : s.writer = true → s.index.sealedEpoch = none →
    s.index.gate.hasDrained s.index.gate.epoch.other = true ∧
      (∀ n p, s.pin? n = some p → p.pin.epoch = s.index.gate.epoch) ∧
      s.index.code.hasSealed = false ∧ s.index.depth.hasSealed = false
  faultless : ∀ f, Event.fault f ∉ s.index.host.journal
  /-- The writer counts the regions that are registered. -/
  counts : s.counts? =
    if s.writer then some (s.index.codeRegions.length, s.index.depthRegions.length) else none
  /-- To each list an act does nothing but to unlink and to park, or to park and to link a node. -/
  edits : ∀ s', Act s s' → Index.Edited s.index s'.index
  /-- The counts are right, also in the midst of that. -/
  code : ∀ l, SkipList.Pruned s.index.code l → l.Counted
  depth : ∀ l, SkipList.Pruned s.index.depth l → l.Counted

variable {settings : Settings} {allocator : Allocator} {s : Session} {sc : Scene}

theorem Reached.faultless (h : Reached settings allocator s sc) (f : Fault) :
    Event.fault f ∉ s.index.host.journal := by
  have hbooks := h.leads.moves.faultless f
  unfold Host.books at hbooks
  rw [List.mem_filter, Array.mem_toList_iff] at hbooks
  exact fun hmem => hbooks ⟨hmem, rfl⟩

theorem Reached.disciplined (h : Reached settings allocator s sc) : Disciplined s := by
  have hsound := h.leads.sound
  have hindex := hsound.index
  have hepoch := hindex.gate.epoch_eq
  refine ⟨hindex.gate.isOpen_eq.trans hindex.closed, fun hwriter e he => ?_,
    fun hwriter hnone => ?_, h.faultless, ?_, fun _ => act_edited, fun l hp => ?_,
    fun l hp => ?_⟩
  · rw [hepoch]
    exact (hsound.attended hwriter).busy e (hindex.sealedEpoch.symm.trans he)
  · obtain ⟨hcode, hdepth, hreaders⟩ :=
      (hsound.attended hwriter).idle (hindex.sealedEpoch.symm.trans hnone)
    rw [hepoch, hindex.gate.hasDrained_eq, decide_eq_true_iff, hindex.code.hasSealed_eq,
      hindex.depth.hasSealed_eq, hcode, hdepth]
    refine ⟨hreaders, fun n p hp => Epoch.eq_of_ne_other fun hother => ?_, rfl, rfl⟩
    -- a pin in the other epoch would be counted there
    have hpos := Scene.pinned_pos (hsound.pin_live hp)
    rw [hother, ← hsound.orderly.readers, hreaders] at hpos
    exact Nat.lt_irrefl 0 hpos
  · rw [counts?, hindex.code.counts.count, hindex.depth.counts.count, Index.codeRegions,
      Index.depthRegions, List.length_map, List.length_map]
  · obtain ⟨y, hlaid, -⟩ := hindex.code.pruned hp
    exact hlaid.counts
  · obtain ⟨y, hlaid, -⟩ := hindex.depth.pruned hp
    exact hlaid.counts

/-- Every session is disciplined at every moment of every run. -/
theorem run_disciplined (settings : Settings) (allocator : Allocator) (cs : List Command)
    (hacts : Acts ((start settings allocator).run cs) s) : Disciplined s := by
  obtain ⟨sc, hreached⟩ := acts_reached settings allocator ((run_acts _ cs).trans hacts)
  exact hreached.disciplined

/-- So it is while one region waits for a reader and another one, removed later, waits behind it. -/
theorem disciplined_behind_reader :
    let s := (start {} .generous).run [.writer (.addCode ⟨⟨16, 8⟩, .ofDescriptors []⟩),
      .writer (.addCode ⟨⟨32, 8⟩, .ofDescriptors []⟩), .reader 0 .pin,
      .writer (.freeBlock 16 24), .writer (.freeBlock 32 40)]
    s.index.sealedEpoch = some 0 ∧ s.index.code.hasRetired = true ∧ Disciplined s :=
  ⟨by decide +kernel, by decide +kernel, run_disciplined {} .generous _ .refl⟩

end Session

end JitIndex
