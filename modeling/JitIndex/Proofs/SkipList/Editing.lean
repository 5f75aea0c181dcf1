import JitIndex.Proofs.SkipList.Alloc
import JitIndex.Proofs.SkipList.Parking

/-!
# Edits of a list, seen from a node that is not linked

The writer of a list tidies up what is parked (`Tidy`), unlinks nodes one after
the other (`Prune`), and makes and links a node (`Insertion`). A reader may
stand on a node that was unlinked long ago, and follows its link on level 0
from there. What matters to him is that an edit spares such a node (`Spares`):

- a new link is written behind the entries below a key, and these are linked;
- a link is lent to the free chain only when its slot becomes free.

The frame lemmas come first and need no layout: every operation names the sites
that it writes to. The layout says in which places those sites are.
-/

namespace JitIndex

namespace SkipList

universe u

variable {α : Type u} {l l' : SkipList α} {y : Layout α}

/-! ## Where links are written -/

theorem next_setNext_of_ne {site s : Site} (hne : s ≠ site) (level v : Nat)
    (target : Option SlotId) : (l.setNext site level target).next s v = l.next s v := by
  cases site with
  | none =>
      cases s with
      | none => exact absurd rfl hne
      | some x => rfl
  | some id =>
      cases s with
      | none => rfl
      | some x =>
          refine next_congr ?_ v
          rw [node?_setNext, if_neg]
          intro heq
          exact hne heq.symm

theorem next_detach_of_not_mem (id : SlotId) {s : Site} (v : Nat) : ∀ {sites : List Site}
    (_ : s ∉ sites) (level : Nat), (l.detach id level sites).next s v = l.next s v
  | [], _, _ => rfl
  | site :: above, hs, level => by
      obtain ⟨hne, habove⟩ := not_or.mp fun h => hs (List.mem_cons.mpr h)
      have hrest := next_detach_of_not_mem id v habove (level + 1)
      rw [detach, detachAt]
      split
      · rw [next_setNext_of_ne hne, hrest]
      · exact hrest

theorem next_splice_of_not_mem {id : SlotId} {s : Site} (hid : s ≠ some id) (v : Nat) :
    ∀ {l : SkipList α} {sites : List Site} (_ : s ∉ sites) (level : Nat),
      (l.splice id level sites).next s v = l.next s v
  | _, [], _, _ => rfl
  | l, site :: above, hs, level => by
      obtain ⟨hne, habove⟩ := not_or.mp fun h => hs (List.mem_cons.mpr h)
      rw [splice, next_splice_of_not_mem hid v habove, spliceAt, next_setNext_of_ne hne,
        next_setNext_of_ne hid]

theorem next_unlinkBehind_of_not_mem {s : Site} {sites : List Site} (hs : s ∉ sites) (key : Addr)
    (v : Nat) : (l.unlinkBehind sites key).2.next s v = l.next s v := by
  unfold unlinkBehind
  dsimp only
  split
  · rfl
  · rw [next_retire, next_detach_of_not_mem]
    intro hmem
    exact hs (List.mem_of_mem_take hmem)

theorem next_link_of_not_mem {id : SlotId} {n : Node α} (hn : l.node? id = some n) {s : Site}
    (hs : s ∉ l.predecessors n.key) (hid : s ≠ some id) (v : Nat) :
    (l.link id).2.next s v = l.next s v := by
  have hsites : s ∉ (l.predecessors n.key).take n.height := fun hmem =>
    hs (List.mem_of_mem_take hmem)
  have hspliced := next_splice_of_not_mem (l := (l.unlinkBehind (l.predecessors n.key) n.key).2)
    hid v hsites 0
  unfold link
  rw [hn]
  dsimp only
  refine Eq.trans ?_ (hspliced.trans (next_unlinkBehind_of_not_mem hs n.key v))
  cases s <;> rfl

/-- Only the links of released slots are lent to the free chain. -/
theorem next_reclaimSome_of_not_mem {s : Site} (v : Nat) : ∀ {fuel : Nat} {l : SkipList α},
    (∀ id ∈ ids (l.reclaimSome fuel).1, s ≠ some id) → (l.reclaimSome fuel).2.next s v = l.next s v
  | 0, _, _ => rfl
  | fuel + 1, l, hs => by
      rw [reclaimSome] at hs ⊢
      cases hsealed : l.sealed with
      | none => rfl
      | some id =>
          cases hn : l.node? id with
          | none => simp only [hn]
          | some n =>
              simp only [hsealed, hn] at hs ⊢
              have hfirst := hs id (List.mem_cons_self ..)
              rw [next_reclaimSome_of_not_mem v fun x hx => hs x (List.mem_cons_of_mem _ hx)]
              refine Eq.trans ?_ (next_setNext_of_ne hfirst 0 v l.free)
              cases s <;> rfl

/-- The sites before a key are linked. -/
theorem Laid.mem_predecessors (h : Laid l y) {key : Addr} {x : SlotId}
    (hx : some x ∈ l.predecessors key) : ∃ e ∈ y.linked, e.id = x ∧ e.key < key := by
  rw [h.predecessors_eq] at hx
  obtain ⟨v, -, hv⟩ := List.mem_map.mp hx
  have hmem := (onLevel_sublist l v _).subset (List.mem_of_getLast? hv)
  obtain ⟨e, he, hid⟩ := mem_ids.mp hmem
  obtain ⟨he, hkey⟩ := List.mem_filter.mp he
  exact ⟨e, he, hid, of_decide_eq_true hkey⟩

/-! ## Edits -/

/-- What is parked moves along. -/
inductive Tidy (l : SkipList α) : SkipList α → Prop
  | sealRetired : Tidy l l.sealRetired
  | reclaim : Tidy l l.reclaim.2
  | orphan : Tidy l l.orphan
  | drain : Tidy l l.drain.2

/-- A node is unlinked, or what is parked moves along. -/
inductive Prune (l : SkipList α) : SkipList α → Prop
  | tidy {l' : SkipList α} (h : Tidy l l') : Prune l l'
  | unlink (key : Addr) : Prune l (l.unlink key).2

/-- A node is made and linked, unless there is no slot for it. -/
inductive Insertion [Inhabited α] (l : SkipList α) : SkipList α → Prop
  | refused {host host' : Host} {key : Addr} {payload : α} {f : Failure} {l' : SkipList α}
      (h : l.alloc host key payload = (.error f, l', host')) : Insertion l l'
  | linked {host host' : Host} {key : Addr} {payload : α} {id : SlotId} {l₁ : SkipList α}
      (h : l.alloc host key payload = (.ok id, l₁, host')) : Insertion l (l₁.link id).2

abbrev Tidied : SkipList α → SkipList α → Prop := Relation.ReflTransGen Tidy

abbrev Pruned : SkipList α → SkipList α → Prop := Relation.ReflTransGen Prune

/-- At most one node was linked, and if one was, then none was unlinked but the one in its place. -/
inductive Edited [Inhabited α] (l l' : SkipList α) : Prop
  | pruned (h : Pruned l l')
  | inserted {l₁ l₂ : SkipList α} (h₁ : Tidied l l₁) (h : Insertion l₁ l₂) (h₂ : Tidied l₂ l')

theorem Tidied.pruned (h : Tidied l l') : Pruned l l' :=
  Relation.ReflTransGen.mono (fun _ _ => .tidy) _ _ h

theorem unlinkWhile_pruned (choice : SkipList α → Option (Entry α)) : ∀ (fuel : Nat)
    (l : SkipList α), Pruned l (l.unlinkWhile choice fuel).2
  | 0, _ => .refl
  | fuel + 1, l => by
      unfold unlinkWhile
      split
      · exact .refl
      · exact (unlinkWhile_pruned choice fuel _).head (.unlink _)

/-! ## What linking leaves -/

namespace Layout

variable (y : Layout α) (e : Entry α)

theorem mem_link : e ∈ (y.link e).linked := by
  simp [link]

variable {e} in
theorem mem_link_of_lt {f : Entry α} (hf : f ∈ y.linked) (hlt : f.key < e.key) :
    f ∈ (y.link e).linked :=
  List.mem_append_left _ (List.mem_filter.mpr ⟨hf, by simpa using hlt⟩)

/-- The key of an entry that is replaced stays bound. -/
theorem exists_key_link {f : Entry α} (hf : f ∈ y.linked) :
    ∃ g ∈ (y.link e).linked, g.key = f.key := by
  by_cases hsame : f.key = e.key
  · exact ⟨e, y.mem_link e, hsame.symm⟩
  · refine ⟨f, ?_, rfl⟩
    rcases UInt64.lt_or_lt_of_ne hsame with hlt | hlt
    · exact y.mem_link_of_lt hf hlt
    · refine List.mem_append_right _ (List.mem_cons_of_mem _ ?_)
      exact List.mem_filter.mpr ⟨hf, by simpa using hlt⟩

end Layout

/-- Whatever is not taken off the free chain is free still. -/
theorem mem_tail_of_ne {free : List SlotId} {id x : SlotId}
    (hfresh : free.head? = some id ∨ free = []) (hx : x ∈ free) (hne : x ≠ id) :
    x ∈ free.tail := by
  rcases hfresh with hfirst | rfl
  · obtain ⟨rest, rfl⟩ := List.head?_eq_some_iff.mp hfirst
    exact (List.mem_cons.mp hx).resolve_left hne
  · cases hx

/-! ## What an edit spares -/

/-- A slot that is neither linked nor free afterwards was not free before, and the node in it has
its contents and its link on level 0 still. -/
structure Spares (l l' : SkipList α) : Prop where
  used : l.used ≤ l'.used
  spared : ∀ x : SlotId, x.val ≤ l.used → x ∉ ids l'.entries → x ∉ l'.freeSlots →
    x ∉ l.freeSlots ∧ l'.core? x = l.core? x ∧ l'.next (some x) 0 = l.next (some x) 0

namespace Laid

variable {y' : Layout α}

theorem spares (h : Laid l y) (h' : Laid l' y') (hused : l.used ≤ l'.used)
    (hfree : ∀ x ∈ y.free, x ∈ y'.free ∨ x ∈ ids y'.linked)
    (hcore : ∀ x : SlotId, x.val ≤ l.used → x ∉ ids y'.linked → l'.core? x = l.core? x)
    (hnext : ∀ x : SlotId, x.val ≤ l.used → x ∉ ids y'.linked → x ∉ y'.free →
      l'.next (some x) 0 = l.next (some x) 0) : Spares l l' := by
  refine ⟨hused, fun x hx hlinked hnot => ?_⟩
  rw [h'.entries_eq] at hlinked
  rw [h'.freeSlots_eq] at hnot
  refine ⟨fun hmem => ?_, hcore x hx hlinked, hnext x hx hlinked hnot⟩
  rw [h.freeSlots_eq] at hmem
  exact (hfree x hmem).elim hnot hlinked

/-- What is sealed is let go of when it is not reclaimed in time. -/
theorem sealRetired_gone (h : Laid l y) : Laid l.sealRetired
    { y with retired := [], sealed := y.retired, gone := ids y.sealed ++ y.gone } := by
  refine h.rearranged (fun _ => rfl) rfl ?_ ?_ (List.Subset.refl _) h.sorted h.levels h.free
    visits_chainOf_none h.retired h.orphans h.count
  · rw [List.perm_iff_count]
    intro id
    simp only [Layout.slots, Layout.entries, ids, List.map_append, List.map_nil,
      List.count_append, List.count_nil]
    omega
  · intro e he
    simp only [Layout.entries, List.mem_append, List.not_mem_nil, false_or] at he ⊢
    tauto

theorem tidy (h : Laid l y) (ht : Tidy l l') :
    ∃ y', Laid l' y' ∧ y'.pending = y.pending ∧ y'.linked = y.linked ∧ Spares l l' := by
  cases ht with
  | sealRetired =>
      have h' := h.sealRetired_gone
      exact ⟨_, h', rfl, rfl, h.spares h' (Nat.le_refl _) (fun _ => Or.inl) (fun _ _ _ => rfl)
        fun _ _ _ _ => rfl⟩
  | reclaim =>
      obtain ⟨l', hrun, h', hcore, hused⟩ := h.reclaim_eq
      rw [hrun]
      refine ⟨_, h', rfl, rfl, h.spares h' (Nat.le_of_eq hused.symm)
        (fun x hx => Or.inl (List.mem_append_right _ hx)) (fun x _ _ => hcore x)
        fun x _ _ hfree => ?_⟩
      -- a slot that is not free now was not released
      have hkept : ∀ id ∈ ids (l.reclaimSome l.used).1, some x ≠ some id := by
        rintro id hid heq
        rw [show (l.reclaimSome l.used).1 = y.sealed from congrArg Prod.fst hrun] at hid
        rw [Option.some.inj heq] at hfree
        exact hfree (List.mem_append_left _ (List.mem_reverse.mpr hid))
      have hnext := next_reclaimSome_of_not_mem 0 hkept
      rwa [show (l.reclaimSome l.used).2 = l' from congrArg Prod.snd hrun] at hnext
  | orphan =>
      obtain ⟨h', hcore, hused⟩ := h.orphan_laid
      exact ⟨_, h', rfl, rfl, h.spares h' (Nat.le_of_eq hused.symm) (fun _ => Or.inl)
        (fun x _ _ => hcore x) fun x _ _ _ => h.orphan_visits.2.next (some x) 0⟩
  | drain =>
      obtain ⟨l', hrun, h', hcore, hused⟩ := h.drain_eq
      rw [hrun]
      refine ⟨_, h', rfl, rfl, h.spares h' (Nat.le_of_eq hused.symm) (fun _ => Or.inl)
        (fun x _ _ => hcore x) fun x _ _ _ => ?_⟩
      obtain rfl : { l with orphans := none } = l' := congrArg Prod.snd hrun
      rfl

theorem prune (h : Laid l y) (hp : Prune l l') :
    ∃ y', Laid l' y' ∧ y'.pending = y.pending ∧ y'.linked ⊆ y.linked ∧ Spares l l' := by
  cases hp with
  | tidy ht =>
      obtain ⟨y', h', hready, hlinked, hspares⟩ := h.tidy ht
      exact ⟨y', h', hready, fun e he => hlinked ▸ he, hspares⟩
  | unlink key =>
      obtain ⟨l', hrun, h', hcore, hused⟩ := h.unlink_eq key
      rw [hrun]
      refine ⟨_, h', rfl, fun e he => (List.mem_filter.mp he).1,
        h.spares h' (Nat.le_of_eq hused.symm) (fun _ => Or.inl) (fun x _ _ => hcore x)
        fun x _ hx _ => ?_⟩
      -- a site that is written to lies before the key, and what lies there stays linked
      have hsites : some x ∉ l.predecessors key := by
        intro hmem
        obtain ⟨e, he, rfl, hkey⟩ := h.mem_predecessors hmem
        refine hx (List.mem_map_of_mem (List.mem_filter.mpr ⟨he, ?_⟩))
        simpa using UInt64.ne_of_lt hkey
      have hnext := next_unlinkBehind_of_not_mem (l := l) hsites key 0
      have hl' : (l.unlinkBehind (l.predecessors key) key).2 = l' := congrArg Prod.snd hrun
      rwa [hl'] at hnext

/-- A node that was made is linked at once: nothing else changed but what was in its place. -/
theorem insertion [Inhabited α] (h : Laid l y) (hready : y.pending = []) (hi : Insertion l l') :
    ∃ y', Laid l' y' ∧ y'.pending = [] ∧
      (∀ e ∈ y.linked, ∃ f ∈ y'.linked, f.key = e.key) ∧ Spares l l' := by
  cases hi with
  | @refused host host' key payload f l' halloc =>
      rcases h.alloc_cases host key payload with ⟨_, heq, -⟩ | ⟨id, l₁, _, heq, -⟩
      · obtain rfl : l = l' := congrArg (fun r => r.2.1) (heq.symm.trans halloc)
        exact ⟨y, h, hready, fun e he => ⟨e, he, rfl⟩, h.spares h (Nat.le_refl _)
          (fun _ => Or.inl) (fun _ _ _ => rfl) fun _ _ _ _ => rfl⟩
      · cases heq.symm.trans halloc
  | @linked host host' key payload id l₁ halloc =>
      rcases h.alloc_cases host key payload with
        ⟨_, heq, -⟩ | ⟨_, _, _, heq, -, hfresh, hused, h₁, hnode⟩
      · cases heq.symm.trans halloc
      · cases heq.symm.trans halloc
        obtain ⟨l', hrun, h', hcore, hused'⟩ := h₁.link_eq (List.mem_cons_self ..)
        obtain ⟨n, hn, hentry⟩ := Option.map_eq_some_iff.mp
          (h₁.held ⟨id, key, payload⟩ (List.mem_cons_self ..))
        obtain rfl : n.key = key := congrArg Entry.key hentry
        rw [hrun]
        generalize he : (⟨id, n.key, payload⟩ : Entry α) = e at h₁ h'
        have hid : id = e.id := congrArg Entry.id he
        have hkey : n.key = e.key := congrArg Entry.key he
        have hne : ∀ {x : SlotId}, x ∉ ids ((y.make e).link e).linked → x ≠ id := fun hx heq =>
          hx (mem_ids.mpr ⟨e, (y.make e).mem_link e, (heq.trans hid).symm⟩)
        refine ⟨_, h', ?_, fun f hf => (y.make e).exists_key_link e hf,
          h.spares h' (Nat.le_trans hused (Nat.le_of_eq hused'.symm)) (fun x hx => ?_)
            (fun x hle hx => ?_) fun x hle hx _ => ?_⟩
        · simp [Layout.link, Layout.make, hready]
        · -- the slot that was free is the first one or stays free
          by_cases hfirst : x = id
          · exact Or.inr (mem_ids.mpr ⟨e, (y.make e).mem_link e, (hfirst.trans hid).symm⟩)
          · exact Or.inl (mem_tail_of_ne (hfresh.imp_right And.left) hx hfirst)
        · exact (hcore x).trans (core?_congr (hnode x (hne hx) hle))
        · -- as in `prune`: the sites before the key stay linked
          have hsites : some x ∉ l₁.predecessors n.key := by
            intro hmem
            obtain ⟨f, hf, rfl, hlt⟩ := h₁.mem_predecessors hmem
            exact hx (List.mem_map_of_mem ((y.make e).mem_link_of_lt hf (hkey ▸ hlt)))
          have hnext := next_link_of_not_mem hn hsites (fun heq => hne hx (Option.some.inj heq)) 0
          rw [hrun] at hnext
          exact hnext.trans (next_congr (hnode x (hne hx) hle) 0)

theorem tidied (h : Laid l y) (ht : Tidied l l') :
    ∃ y', Laid l' y' ∧ y'.pending = y.pending ∧ y'.linked = y.linked := by
  induction ht with
  | refl => exact ⟨y, h, rfl, rfl⟩
  | tail _ ht ih =>
      obtain ⟨y₁, h₁, hready₁, hlinked₁⟩ := ih
      obtain ⟨y', h', hready, hlinked, -⟩ := h₁.tidy ht
      exact ⟨y', h', hready.trans hready₁, hlinked.trans hlinked₁⟩

theorem pruned (h : Laid l y) (hp : Pruned l l') :
    ∃ y', Laid l' y' ∧ y'.pending = y.pending ∧ y'.linked ⊆ y.linked := by
  induction hp with
  | refl => exact ⟨y, h, rfl, List.Subset.refl _⟩
  | tail _ hp ih =>
      obtain ⟨y₁, h₁, hready₁, hlinked₁⟩ := ih
      obtain ⟨y', h', hready, hlinked, -⟩ := h₁.prune hp
      exact ⟨y', h', hready.trans hready₁, List.Subset.trans hlinked hlinked₁⟩

end Laid

end SkipList

end JitIndex
