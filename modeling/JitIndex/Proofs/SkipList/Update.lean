import JitIndex.Proofs.SkipList.Search
import JitIndex.SkipList.Update

/-!
# Changing a laid-out list

Linking and unlinking a node, followed on the layout of the list. A node is
moved level by level, and what a level does is settled by `next_detach` and
`next_splice`: a link is changed behind one site of the level, so the level as
a chain loses or gains one slot, and everything that is read elsewhere stays.

- `Laid.unlink_eq`, `Laid.link_eq`: a node is taken out of the list, or put
  into it in the place of the one with its key;
- `Laid.unlinkWhile_spec`: all nodes that a choice falls on are taken out.
-/

namespace JitIndex

namespace SkipList

universe u

variable {α : Type u}

/-! ## One site per level -/

theorem detachAt_relinked (l : SkipList α) (id : SlotId) (level : Nat) (site : Site) :
    Relinked l (l.detachAt id level site) := by
  unfold detachAt
  split
  · exact relinked_setNext ..
  · exact .refl l

theorem next_detachAt {l : SkipList α} {site : Site} (hsite : l.Stands site) {level : Nat}
    (hlevel : level < maxHeight) (id : SlotId) (s : Site) (v : Nat) :
    (l.detachAt id level site).next s v =
      if (v = level ∧ s = site) ∧ l.next site level = some id then l.next (some id) level
      else l.next s v := by
  unfold detachAt
  split
  · rename_i hbehind
    rw [next_setNext hsite hlevel]
    simp only [hbehind, and_true, and_comm (a := s = site)]
  · rename_i hbehind
    simp only [hbehind, and_false, if_false]

theorem detach_relinked (id : SlotId) : ∀ (sites : List Site) (l : SkipList α) (level : Nat),
    Relinked l (l.detach id level sites)
  | [], l, _ => .refl l
  | _ :: above, l, level =>
      (detach_relinked id above l (level + 1)).trans (detachAt_relinked ..)

/-- Taking a node out changes one link per level, if the node is behind it. -/
theorem next_detach {l : SkipList α} {sites : Nat → Site} (hsites : ∀ v, l.Stands (sites v))
    (id : SlotId) (s : Site) (v : Nat) : ∀ (count level : Nat), level + count ≤ maxHeight →
    (l.detach id level ((List.range' level count).map sites)).next s v =
      if (level ≤ v ∧ v < level + count ∧ s = sites v) ∧ l.next (sites v) v = some id then
        l.next (some id) v
      else l.next s v
  | 0, level, _ => by
      rw [if_neg (by omega)]
      rfl
  | count + 1, level, hle => by
      have hrel := detach_relinked id ((List.range' (level + 1) count).map sites) l (level + 1)
      have ih : ∀ s v, _ := fun s v =>
        next_detach hsites id s v count (level + 1) (by omega)
      rw [List.range'_succ, List.map_cons, detach,
        next_detachAt (hrel.stands (hsites level)) (by omega)]
      simp only [ih]
      by_cases hv : v = level
      · subst hv
        simp only [show ¬ (v + 1 ≤ v) by omega, false_and, if_false]
        simp
      · simp only [hv, false_and, if_false]
        have : (level + 1 ≤ v ∧ v < level + 1 + count ∧ s = sites v) ↔
            (level ≤ v ∧ v < level + (count + 1) ∧ s = sites v) := by
          constructor <;> rintro ⟨h1, h2, h3⟩ <;> exact ⟨by omega, by omega, h3⟩
        simp only [this]

theorem spliceAt_relinked (l : SkipList α) (id : SlotId) (level : Nat) (site : Site) :
    Relinked l (l.spliceAt id level site) :=
  (relinked_setNext ..).trans (relinked_setNext ..)

theorem next_spliceAt {l : SkipList α} {id : SlotId} (hid : l.Stands (some id)) {site : Site}
    (hsite : l.Stands site) (level : Nat) (hlevel : level < maxHeight) (s : Site) (v : Nat) :
    (l.spliceAt id level site).next s v =
      if s = site ∧ v = level then some id
      else if s = some id ∧ v = level then l.next site level
      else l.next s v := by
  unfold spliceAt
  rw [next_setNext ((relinked_setNext ..).stands hsite) hlevel, next_setNext hid hlevel]

theorem splice_relinked (id : SlotId) : ∀ (sites : List Site) (l : SkipList α) (level : Nat),
    Relinked l (l.splice id level sites)
  | [], l, _ => .refl l
  | _ :: above, l, level =>
      (spliceAt_relinked l id level _).trans (splice_relinked id above _ (level + 1))

/-- Putting a node in changes one link per level, and the link of the node. -/
theorem next_splice {id : SlotId} {sites : Nat → Site} (s : Site) (v : Nat) :
    ∀ (count level : Nat) {l : SkipList α}, level + count ≤ maxHeight → l.Stands (some id) →
    (∀ v, l.Stands (sites v)) →
    (l.splice id level ((List.range' level count).map sites)).next s v =
      if (level ≤ v ∧ v < level + count) ∧ s = sites v then some id
      else if (level ≤ v ∧ v < level + count) ∧ s = some id then l.next (sites v) v
      else l.next s v
  | 0, level, l, _, _, _ => by
      rw [if_neg (by omega), if_neg (by omega)]
      rfl
  | count + 1, level, l, hle, hid, hsites => by
      have hrel := spliceAt_relinked l id level (sites level)
      rw [List.range'_succ, List.map_cons, splice,
        next_splice s v _ _ (by omega) (hrel.stands hid) fun v => hrel.stands (hsites v)]
      have hlevel := next_spliceAt hid (hsites level) level (by omega)
      simp only [hlevel]
      by_cases hv : v = level
      · subst hv
        simp only [show ¬ (v + 1 ≤ v) by omega, false_and, if_false, and_true]
        simp
      · simp only [hv, and_false, if_false]
        have : (level + 1 ≤ v ∧ v < level + 1 + count) ↔
            (level ≤ v ∧ v < level + (count + 1)) := by omega
        simp only [this]

theorem next_retire (l : SkipList α) (id : SlotId) (s : Site) (v : Nat) :
    (l.retire id).next s v = l.next s v := by
  cases s with
  | none => rfl
  | some x => exact next_setParked l id l.retired (some x) v

theorem core?_retire (l : SkipList α) (id other : SlotId) :
    (l.retire id).core? other = l.core? other :=
  core?_setParked l id l.retired other

/-! ## What happens to a layout -/

namespace Layout

/-- The layout after the node with a key was unlinked. -/
def unlink (y : Layout α) (key : Addr) : Layout α :=
  { y with
    linked := y.linked.filter fun e => e.key != key
    retired := (y.linked.find? fun e => e.key == key).toList ++ y.retired }

/-- The layout after a node was linked that had waited for it. -/
def link (y : Layout α) (e : Entry α) : Layout α :=
  { y.unlink e.key with
    pending := y.pending.filter fun f => f.id != e.id
    linked :=
      y.linked.filter (fun f => f.key < e.key) ++ e :: y.linked.filter fun f => e.key < f.key }

end Layout

namespace Laid

variable {l l' : SkipList α} {y y' : Layout α}

/-- A list whose nodes are the same is laid out anew if the slots have only
changed places, and all chains run accordingly. -/
theorem rearranged (h : Laid l y) (hcore : ∀ id, l'.core? id = l.core? id)
    (hused : l'.used = l.used) (hslots : y'.slots.Perm y.slots)
    (hentries : y'.entries ⊆ y.entries)
    (hlive : y'.pending ++ y'.linked ⊆ y.pending ++ y.linked)
    (hsorted : y'.linked.Pairwise fun a b => a.key < b.key)
    (hlevels : ∀ level < maxHeight,
      Visits (fun s => l'.next s level) none (l.onLevel level y'.linked))
    (hfree : Visits (chainOf l'.free fun id => l'.next (some id) 0) none y'.free)
    (hretired : Visits (chainOf l'.retired l'.parkedAfter) none (ids y'.retired))
    (hsealed : Visits (chainOf l'.sealed l'.parkedAfter) none (ids y'.sealed))
    (horphans : Visits (chainOf l'.orphans l'.parkedAfter) none (ids y'.orphans))
    (hcount : l'.count = y'.linked.length) : Laid l' y' where
  present id hid := by
    rw [← core?_isSome, hcore, core?_isSome]
    exact h.present id (hused ▸ hid)
  counted id := by rw [hslots.count_eq, h.counted, hused]
  held e he := by
    rw [entry_eq_core, hcore, ← entry_eq_core]
    exact h.held e (hentries he)
  sorted := hsorted
  tall e he := by
    rw [heightOf_eq_core, hcore, ← heightOf_eq_core]
    exact h.tall e (hlive he)
  levels level hlevel := by
    have hsame : l'.onLevel level y'.linked = l.onLevel level y'.linked := by
      simp only [onLevel, heightOf_eq_core, hcore]
    rw [hsame]
    exact hlevels level hlevel
  free := hfree
  retired := hretired
  sealed := hsealed
  orphans := horphans
  count := hcount

theorem ne_of_linked (h : Laid l y) {e : Entry α} (he : e ∈ y.linked) {id : SlotId}
    (hid : id ∈ ids y.retired ∨ id ∈ ids y.sealed ∨ id ∈ ids y.orphans ∨ id ∈ y.free) :
    id ≠ e.id := by
  have hnd := h.nodup
  simp only [Layout.slots, Layout.entries, ids_append, List.append_assoc] at hnd
  have hlinked := (List.nodup_append.mp (List.nodup_append.mp hnd).2.1).2.2 e.id
    (List.mem_map_of_mem he)
  rintro rfl
  refine hlinked e.id ?_ rfl
  simp only [List.mem_append]
  tauto

/-! ## Unlinking -/

/-- The last site of every level among the entries in front stands. -/
theorem stands_getLast? (h : Laid l y) {below above : List (Entry α)}
    (hsplit : y.linked = below ++ above) (v : Nat) : l.Stands (l.onLevel v below).getLast? := by
  intro id hid
  obtain ⟨e, he, rfl⟩ := mem_ids.mp ((onLevel_sublist l v below).subset (List.mem_of_getLast? hid))
  exact h.node?_isSome (linked_sub y e (hsplit ▸ List.mem_append_left _ he))

/-- The link behind the entries in front leads to the next entry of the level. -/
theorem next_getLast? (h : Laid l y) {below above : List (Entry α)}
    (hsplit : y.linked = below ++ above) {v : Nat} (hv : v < maxHeight) :
    l.next (l.onLevel v below).getLast? v = (l.onLevel v above).head? := by
  have hvis := h.levels v hv
  rw [hsplit, onLevel_append] at hvis
  have := hvis.suffix.link_eq_head?
  rwa [lastSite_none] at this

/-- The head and the slots of a level are different sites. -/
theorem nodup_sites (h : Laid l y) (v : Nat) :
    ((none : Site) :: (l.onLevel v y.linked).map some).Nodup := by
  rw [List.nodup_cons]
  refine ⟨by simp, (h.nodup.sublist ?_).map fun _ _ => Option.some.inj⟩
  exact (onLevel_sublist l v y.linked).trans (linked_sublist y)

/-- Every level without a node that was taken out from behind the entries in front of it. -/
theorem levels_detach (h : Laid l y) {below above : List (Entry α)} {e : Entry α}
    (hsplit : y.linked = below ++ e :: above) {d : SkipList α}
    (hd : l.detach e.id 0 ((List.range' 0 (l.heightOf e.id)).map fun v =>
      (l.onLevel v below).getLast?) = d) {v : Nat} (hv : v < maxHeight) :
    Visits (fun s => d.next s v) none (l.onLevel v (below ++ above)) := by
  have he : e ∈ y.linked := by simp [hsplit]
  have htall := h.tall e (List.mem_append_right _ he)
  have hsites := h.stands_getLast? hsplit
  have hnext : ∀ s, d.next s v = _ := fun s =>
    hd ▸ next_detach hsites e.id s v (l.heightOf e.id) 0 (by omega)
  have hvis := h.levels v hv
  have hnd := h.nodup_sites v
  have hbehind := h.next_getLast? hsplit hv
  rw [hsplit, onLevel_append, onLevel_cons] at hvis hnd
  rw [onLevel_cons] at hbehind
  simp only [hnext]
  rw [onLevel_append]
  by_cases hlow : v < l.heightOf e.id
  · simp only [hlow, if_true] at hvis hnd hbehind
    refine hvis.erase hnd ?_ ?_
    · rw [lastSite_none, if_pos]
      exact ⟨⟨by omega, by omega, rfl⟩, hbehind⟩
    · intro s hs
      rw [lastSite_none] at hs
      rw [if_neg (by tauto)]
  · -- the node does not reach this level
    simp only [hlow, if_false] at hvis
    exact hvis.congr (by rw [if_neg (by omega)]) fun id _ => by rw [if_neg (by omega)]

/-- Nothing but links behind entries in front of a node changes when it is taken out. -/
theorem next_detach_of_ne (h : Laid l y) {below above : List (Entry α)} {e : Entry α}
    (hsplit : y.linked = below ++ e :: above) {d : SkipList α}
    (hd : l.detach e.id 0 ((List.range' 0 (l.heightOf e.id)).map fun v =>
      (l.onLevel v below).getLast?) = d) {x : SlotId} (hx : x ∉ ids below) (v : Nat) :
    d.next (some x) v = l.next (some x) v := by
  have htall := h.tall e (List.mem_append_right _ (by simp [hsplit]))
  have hsites := h.stands_getLast? hsplit
  have hne : some x ≠ (l.onLevel v below).getLast? := fun heq =>
    hx ((onLevel_sublist l v below).subset (List.mem_of_getLast? heq.symm))
  subst hd
  rw [next_detach hsites e.id (some x) v (l.heightOf e.id) 0 (by omega),
    if_neg (by tauto)]

/-- A node taken out from behind the entries in front of it, and parked. -/
theorem retire_detach (h : Laid l y) {below above : List (Entry α)} {e : Entry α}
    (hsplit : y.linked = below ++ e :: above) :
    Laid ((l.detach e.id 0 ((List.range' 0 (l.heightOf e.id)).map fun v =>
        (l.onLevel v below).getLast?)).retire e.id)
      { y with linked := below ++ above, retired := e :: y.retired } := by
  have he : e ∈ y.linked := by simp [hsplit]
  generalize hd : l.detach e.id 0 _ = d
  have hrel : Relinked l d := hd ▸ detach_relinked ..
  have hpresent : (d.node? e.id).isSome := by
    rw [← core?_isSome, hrel.core, core?_isSome]
    exact h.node?_isSome (linked_sub y e he)
  -- the parked chains do not come by this node
  have hparked : ∀ x, x ≠ e.id → (d.setParked e.id d.retired).parkedAfter x = l.parkedAfter x := by
    intro x hx
    rw [parkedAfter_setParked hpresent, if_neg hx, hrel.parkedAfter]
  refine h.rearranged (fun id => (core?_retire ..).trans (hrel.core id)) hrel.used ?_ ?_ ?_ ?_
    ?_ ?_ ?_ ?_ ?_ ?_
  · rw [List.perm_iff_count]
    intro id
    simp only [Layout.slots, Layout.entries, hsplit, ids, List.map_append, List.map_cons,
      List.count_append, List.count_cons]
    omega
  · intro f hf
    simp only [Layout.entries, hsplit, List.mem_append, List.mem_cons] at hf ⊢
    tauto
  · intro f hf
    simp only [hsplit, List.mem_append, List.mem_cons] at hf ⊢
    tauto
  · have hs := h.sorted
    rw [hsplit] at hs
    exact hs.sublist (List.Sublist.append_left (List.sublist_cons_self ..) _)
  · intro v hv
    exact (h.levels_detach hsplit hd hv).congr (next_retire ..) fun id _ => next_retire ..
  · show Visits (chainOf d.free _) none y.free
    rw [hrel.free]
    refine h.free.congr_next fun x hx => (next_retire ..).trans ?_
    refine h.next_detach_of_ne hsplit hd (fun hmem => ?_) 0
    obtain ⟨f, hf, rfl⟩ := mem_ids.mp hmem
    exact h.ne_of_linked (e := f) (by simp [hsplit, hf]) (by tauto) rfl
  · have hret : Visits (chainOf d.retired l.parkedAfter) none (ids y.retired) :=
      hrel.retired ▸ h.retired
    refine hret.push ?_ fun x hx => hparked x (h.ne_of_linked he (by tauto))
    exact (parkedAfter_setParked hpresent ..).trans (if_pos rfl)
  · show Visits (chainOf d.sealed _) none (ids y.sealed)
    rw [hrel.sealed]
    exact h.sealed.congr_next fun x hx => hparked x (h.ne_of_linked he (by tauto))
  · show Visits (chainOf d.orphans _) none (ids y.orphans)
    rw [hrel.orphans]
    exact h.orphans.congr_next fun x hx => hparked x (h.ne_of_linked he (by tauto))
  · show d.count - 1 = (below ++ above).length
    rw [hrel.count, h.count, hsplit]
    simp

/-- The lowest of the sites before a key are the last ones of the entries below the key. -/
theorem take_predecessors (h : Laid l y) (key : Addr) {count : Nat} (hcount : count ≤ maxHeight) :
    (l.predecessors key).take count = (List.range' 0 count).map fun v =>
      (l.onLevel v (y.linked.filter fun e => e.key < key)).getLast? := by
  rw [h.predecessors_eq, List.range_eq_range', ← List.map_take,
    List.take_range'_of_length_ge hcount]

/-- The node behind the sites before a key is unlinked if it has the key. -/
theorem unlinkBehind_eq (h : Laid l y) (key : Addr) :
    ∃ l', l.unlinkBehind (l.predecessors key) key = (y.linked.find? fun e => e.key == key, l') ∧
      Laid l' (y.unlink key) ∧ (∀ id, l'.core? id = l.core? id) ∧ l'.used = l.used := by
  have hsplit := filter_append_filter_not (early_lt key) h.sorted
  have hfound : ((l.predecessors key).head?.bind fun site => l.entryAfter site 0).filter
      (fun e => e.key == key) = y.linked.find? fun e => e.key == key := by
    have hbehind := h.next_getLast? hsplit (v := 0) (by decide)
    rw [← head?_filter_eq_find? h.sorted key, h.predecessors_eq]
    congr 1
    show (l.next (l.onLevel 0 (y.linked.filter fun e => e.key < key)).getLast? 0).bind l.entry? = _
    rw [hbehind, h.onLevel_zero fun e he => (List.mem_filter.mp he).1, ids, List.head?_map]
    cases hhead : (y.linked.filter fun e => !decide (e.key < key)).head? with
    | none => rfl
    | some e =>
        exact h.held e (linked_sub y e (List.mem_filter.mp (List.mem_of_mem_head? hhead)).1)
  unfold unlinkBehind
  simp only [hfound]
  have hkey := split_at_key key h.sorted
  have hne := filter_ne_eq h.sorted key
  cases hfind : y.linked.find? fun e => e.key == key with
  | none =>
      refine ⟨l, rfl, ?_, fun _ => rfl, rfl⟩
      rw [hfind] at hkey
      have hsame : y.unlink key = y := by
        simp only [Layout.unlink, hfind, hne]
        rw [← List.nil_append (y.linked.filter fun e => decide (key < e.key))]
        exact congrArg (fun es => { y with linked := es }) hkey.symm
      rw [hsame]
      exact h
  | some e =>
      rw [hfind] at hkey
      have he := List.mem_of_find?_eq_some hfind
      have htall := h.tall e (List.mem_append_right _ he)
      refine ⟨_, rfl, ?_, fun id => ?_, ?_⟩
      · show Laid ((l.detach e.id 0 ((l.predecessors key).take (l.heightOf e.id))).retire e.id) _
        rw [h.take_predecessors key htall.2]
        simp only [Layout.unlink, hfind, hne]
        exact h.retire_detach hkey
      · exact (core?_retire ..).trans ((detach_relinked ..).core id)
      · exact (detach_relinked ..).used

theorem unlink_eq (h : Laid l y) (key : Addr) :
    ∃ l', l.unlink key = (y.linked.find? fun e => e.key == key, l') ∧
      Laid l' (y.unlink key) ∧ (∀ id, l'.core? id = l.core? id) ∧ l'.used = l.used :=
  h.unlinkBehind_eq key

/-! ## Linking -/

/-- Every level with a node that was put behind the entries below it. -/
theorem levels_splice (h : Laid l y) {below above : List (Entry α)} {e : Entry α}
    (hsplit : y.linked = below ++ above) (he : e ∈ y.pending) {d : SkipList α}
    (hd : l.splice e.id 0 ((List.range' 0 (l.heightOf e.id)).map fun v =>
      (l.onLevel v below).getLast?) = d) {v : Nat} (hv : v < maxHeight) :
    Visits (fun s => d.next s v) none (l.onLevel v (below ++ e :: above)) := by
  have htall := h.tall e (List.mem_append_left _ he)
  have hent : e ∈ y.entries := by simp [Layout.entries, he]
  have hsites := h.stands_getLast? hsplit
  have hstands : l.Stands (some e.id) := fun id hid => Option.some.inj hid ▸ h.node?_isSome hent
  have hnext : ∀ s, d.next s v = _ := fun s =>
    hd ▸ next_splice s v (l.heightOf e.id) 0 (by omega) hstands hsites
  have hvis := h.levels v hv
  have hnd := h.nodup_sites v
  -- a node that waits is on no level yet
  have hnot : e.id ∉ l.onLevel v y.linked := fun hmem => by
    have hids := h.nodup_ids
    simp only [Layout.entries, ids_append] at hids
    refine (List.nodup_append.mp hids).2.2 e.id (List.mem_map_of_mem he) e.id ?_ rfl
    exact List.mem_append_left _ ((onLevel_sublist l v y.linked).subset hmem)
  rw [hsplit, onLevel_append] at hvis hnd hnot
  simp only [hnext]
  rw [onLevel_append, onLevel_cons]
  by_cases hlow : v < l.heightOf e.id
  · rw [if_pos hlow]
    have hbelow : some e.id ≠ (l.onLevel v below).getLast? := fun heq =>
      hnot (List.mem_append_left _ (List.mem_of_getLast? heq.symm))
    refine hvis.insert hnd (by simpa using hnot) ?_ ?_ ?_
    · rw [lastSite_none, if_pos ⟨by omega, rfl⟩]
    · rw [lastSite_none, if_neg (by tauto), if_pos ⟨by omega, rfl⟩]
    · intro s hs hse
      rw [lastSite_none] at hs
      rw [if_neg (by tauto), if_neg (by tauto)]
  · rw [if_neg hlow]
    exact hvis.congr (by rw [if_neg (by omega), if_neg (by omega)])
      fun id _ => by rw [if_neg (by omega), if_neg (by omega)]

/-- Nothing but links behind entries below a node, and its own, changes when it is put in. -/
theorem next_splice_of_ne (h : Laid l y) {below above : List (Entry α)} {e : Entry α}
    (hsplit : y.linked = below ++ above) (he : e ∈ y.pending) {d : SkipList α}
    (hd : l.splice e.id 0 ((List.range' 0 (l.heightOf e.id)).map fun v =>
      (l.onLevel v below).getLast?) = d) {x : SlotId} (hx : x ∉ ids below) (hne : x ≠ e.id)
    (v : Nat) : d.next (some x) v = l.next (some x) v := by
  have htall := h.tall e (List.mem_append_left _ he)
  have hsites := h.stands_getLast? hsplit
  have hent : e ∈ y.entries := by simp [Layout.entries, he]
  have hstands : l.Stands (some e.id) := fun id hid => Option.some.inj hid ▸ h.node?_isSome hent
  have hsite : some x ≠ (l.onLevel v below).getLast? := fun heq =>
    hx ((onLevel_sublist l v below).subset (List.mem_of_getLast? heq.symm))
  subst hd
  rw [next_splice (some x) v (l.heightOf e.id) 0 (by omega) hstands hsites, if_neg (by tauto),
    if_neg fun hc => hne (Option.some.inj hc.2)]

/-- A node that waits, put between the entries below it and those above it. -/
theorem count_splice (h : Laid l y) {below above pre post : List (Entry α)} {e : Entry α}
    (hsplit : y.linked = below ++ above) (hpending : y.pending = pre ++ e :: post)
    (hbelow : ∀ f ∈ below, f.key < e.key) (habove : ∀ f ∈ above, e.key < f.key) {d : SkipList α}
    (hd : l.splice e.id 0 ((List.range' 0 (l.heightOf e.id)).map fun v =>
      (l.onLevel v below).getLast?) = d) :
    Laid { d with count := d.count + 1 }
      { y with pending := pre ++ post, linked := below ++ e :: above } := by
  have he : e ∈ y.pending := by simp [hpending]
  have hent : e ∈ y.entries := by simp [Layout.entries, he]
  have hrel : Relinked l d := hd ▸ splice_relinked ..
  refine h.rearranged hrel.core hrel.used ?_ ?_ ?_ ?_ ?_ ?_ ?_ ?_ ?_ ?_
  · rw [List.perm_iff_count]
    intro id
    simp only [Layout.slots, Layout.entries, hsplit, hpending, ids, List.map_append, List.map_cons,
      List.count_append, List.count_cons]
    omega
  · intro f hf
    simp only [Layout.entries, hsplit, hpending, List.mem_append, List.mem_cons] at hf ⊢
    tauto
  · intro f hf
    simp only [hsplit, hpending, List.mem_append, List.mem_cons] at hf ⊢
    tauto
  · have hs := h.sorted
    rw [hsplit, List.pairwise_append] at hs
    obtain ⟨hs1, hs2, hcross⟩ := hs
    refine List.pairwise_append.mpr ⟨hs1, List.pairwise_cons.mpr ⟨habove, hs2⟩, ?_⟩
    rintro f hf g (_ | ⟨_, hg⟩)
    · exact hbelow f hf
    · exact hcross f hf g hg
  · intro v hv
    exact h.levels_splice hsplit he hd hv
  · show Visits (chainOf d.free _) none y.free
    rw [hrel.free]
    refine h.free.congr_next fun x hx => ?_
    refine h.next_splice_of_ne hsplit he hd (fun hmem => ?_) (h.ne_of_free hx hent) 0
    obtain ⟨f, hf, rfl⟩ := mem_ids.mp hmem
    exact h.ne_of_free hx (linked_sub y f (by simp [hsplit, hf])) rfl
  · show Visits (chainOf d.retired d.parkedAfter) none (ids y.retired)
    rw [hrel.retired]
    exact h.retired.congr_next fun x _ => hrel.parkedAfter x
  · show Visits (chainOf d.sealed d.parkedAfter) none (ids y.sealed)
    rw [hrel.sealed]
    exact h.sealed.congr_next fun x _ => hrel.parkedAfter x
  · show Visits (chainOf d.orphans d.parkedAfter) none (ids y.orphans)
    rw [hrel.orphans]
    exact h.orphans.congr_next fun x _ => hrel.parkedAfter x
  · show d.count + 1 = (below ++ e :: above).length
    rw [hrel.count, h.count, hsplit]
    simp
    omega

theorem onLevel_congr {l l' : SkipList α} (hcore : ∀ id, l'.core? id = l.core? id) (v : Nat)
    (es : List (Entry α)) : l'.onLevel v es = l.onLevel v es := by
  simp only [onLevel, heightOf_eq_core, hcore]

/-- The others that wait, when one of them is linked. -/
theorem filter_id_ne {pre post : List (Entry α)} {e : Entry α}
    (hnd : (ids (pre ++ e :: post)).Nodup) :
    (pre ++ e :: post).filter (fun f => f.id != e.id) = pre ++ post := by
  simp only [ids, List.map_append, List.map_cons] at hnd
  obtain ⟨-, hnd2, hcross⟩ := List.nodup_append.mp hnd
  obtain ⟨hpost, -⟩ := List.nodup_cons.mp hnd2
  have hpre' : pre.filter (fun f => f.id != e.id) = pre := by
    rw [List.filter_eq_self]
    intro f hf
    simpa using hcross f.id (List.mem_map_of_mem hf) e.id (List.mem_cons_self ..)
  have hpost' : post.filter (fun f => f.id != e.id) = post := by
    rw [List.filter_eq_self]
    intro f hf
    simpa using fun heq : f.id = e.id => hpost (heq ▸ List.mem_map_of_mem hf)
  simp [hpre', hpost']

/-- A node that waits takes the place of the one with its key. -/
theorem link_eq (h : Laid l y) {e : Entry α} (he : e ∈ y.pending) :
    ∃ l', l.link e.id = (y.linked.find? fun f => f.key == e.key, l') ∧
      Laid l' (y.link e) ∧ (∀ id, l'.core? id = l.core? id) ∧ l'.used = l.used := by
  have hent : e ∈ y.entries := by simp [Layout.entries, he]
  have htall := h.tall e (List.mem_append_left _ he)
  obtain ⟨node, hnode, heq⟩ := Option.map_eq_some_iff.mp (h.held e hent)
  have hkey : node.key = e.key := by rw [← heq]
  have hheight : node.height = l.heightOf e.id := by simp [heightOf, hnode]
  obtain ⟨l₁, hun, h₁, hcore₁, hused₁⟩ := h.unlinkBehind_eq e.key
  have hheight₁ : l₁.heightOf e.id = l.heightOf e.id := by
    simp only [heightOf_eq_core, hcore₁]
  have hsites : (l.predecessors e.key).take node.height =
      (List.range' 0 (l₁.heightOf e.id)).map fun v =>
        (l₁.onLevel v (y.linked.filter fun f => f.key < e.key)).getLast? := by
    rw [hheight, hheight₁, h.take_predecessors e.key htall.2]
    simp only [onLevel_congr hcore₁]
  obtain ⟨d, hd⟩ : ∃ d, l₁.splice e.id 0 ((l.predecessors e.key).take node.height) = d := ⟨_, rfl⟩
  have hrel : Relinked l₁ d := hd ▸ splice_relinked ..
  rw [hsites] at hd
  obtain ⟨pre, post, hpending⟩ := List.append_of_mem he
  have hspliced := h₁.count_splice (filter_ne_eq h.sorted e.key) hpending
    (fun f hf => by simpa using (List.mem_filter.mp hf).2)
    (fun f hf => by simpa using (List.mem_filter.mp hf).2) hd
  refine ⟨{ d with count := d.count + 1 }, ?_, ?_, fun id => (hrel.core id).trans (hcore₁ id),
    hrel.used.trans hused₁⟩
  · rw [link, hnode]
    simp only [hkey, hun, hsites, hd]
  · have hnd : (ids y.pending).Nodup := by
      have := h.nodup_ids
      rw [Layout.entries, ids_append] at this
      exact (List.nodup_append.mp this).1
    rw [hpending] at hnd
    have hrest : y.pending.filter (fun f => f.id != e.id) = pre ++ post := by
      rw [hpending, filter_id_ne hnd]
    simp only [Layout.link, hrest]
    exact hspliced

/-! ## Unlinking many -/

theorem unlinked_none (h : Laid l y) {chosen : Entry α → Bool}
    (hno : ∀ e ∈ y.linked, chosen e = false) :
    y.linked.filter chosen = [] ∧ Laid l { y with
      linked := y.linked.filter fun e => !chosen e
      retired := [].reverse ++ y.retired } := by
  have hnil : y.linked.filter chosen = [] :=
    List.filter_eq_nil_iff.mpr fun e he => by simp [hno e he]
  have hall : y.linked.filter (fun e => !chosen e) = y.linked := by
    rw [List.filter_eq_self]
    exact fun e he => by simp [hno e he]
  refine ⟨hnil, ?_⟩
  rw [hall]
  exact h

/-- Unlinking what a choice falls on takes every chosen entry out, once each. -/
theorem unlinkWhile_spec (choice : SkipList α → Option (Entry α)) (chosen : Entry α → Bool)
    (hsome : ∀ {l y}, Laid l y → ∀ e, choice l = some e → e ∈ y.linked ∧ chosen e = true)
    (hnone : ∀ {l y}, Laid l y → choice l = none → ∀ e ∈ y.linked, chosen e = false) :
    ∀ (fuel : Nat) {l : SkipList α} {y : Layout α}, Laid l y →
      (y.linked.filter chosen).length ≤ fuel →
      ∃ es l', l.unlinkWhile choice fuel = (es, l') ∧ es.Perm (y.linked.filter chosen) ∧
        Laid l' { y with
          linked := y.linked.filter fun e => !chosen e
          retired := es.reverse ++ y.retired } ∧
        (∀ id, l'.core? id = l.core? id) ∧ l'.used = l.used
  | 0, l, y, h, hlen => by
      have hnil := List.eq_nil_of_length_eq_zero (Nat.le_zero.mp hlen)
      obtain ⟨-, h'⟩ := h.unlinked_none fun e he => by
        simpa using List.filter_eq_nil_iff.mp hnil e he
      exact ⟨[], l, rfl, by rw [hnil], h', fun _ => rfl, rfl⟩
  | fuel + 1, l, y, h, hlen => by
      rw [unlinkWhile]
      cases hc : choice l with
      | none =>
          obtain ⟨hnil, h'⟩ := h.unlinked_none (hnone h hc)
          exact ⟨[], l, rfl, by rw [hnil], h', fun _ => rfl, rfl⟩
      | some e =>
          obtain ⟨he, hchosen⟩ := hsome h e hc
          obtain ⟨l₁, hun, h₁, hcore₁, hused₁⟩ := h.unlink_eq e.key
          have hfind := find?_key h.sorted he
          have hsplit := split_at_key e.key h.sorted
          have hne := filter_ne_eq h.sorted e.key
          rw [hfind] at hsplit hun
          generalize y.linked.filter (fun f => decide (f.key < e.key)) = below at hsplit hne
          generalize y.linked.filter (fun f => decide (e.key < f.key)) = above at hsplit hne
          have h₁' : Laid l₁ { y with linked := below ++ above, retired := e :: y.retired } := by
            simp only [Layout.unlink, hfind, hne] at h₁
            exact h₁
          have hlen₁ : ((below ++ above).filter chosen).length ≤ fuel := by
            rw [hsplit] at hlen
            simp [hchosen] at hlen ⊢
            omega
          obtain ⟨es, l', hrest, hperm, h', hcore, hused⟩ :=
            unlinkWhile_spec choice chosen hsome hnone fuel h₁' hlen₁
          refine ⟨e :: es, l', ?_, ?_, ?_, fun id => (hcore id).trans (hcore₁ id),
            hused.trans hused₁⟩
          · simp [hun, hrest]
          · rw [hsplit]
            simp only [List.filter_append, Option.toList_some, List.cons_append, List.nil_append,
              List.filter_cons, hchosen, if_true] at hperm ⊢
            exact (hperm.cons e).trans List.perm_middle.symm
          · have hkeep : y.linked.filter (fun f => !chosen f) =
                (below ++ above).filter fun f => !chosen f := by
              rw [hsplit]
              simp [hchosen]
            simpa [hkeep] using h'

theorem unlinkAll_spec (h : Laid l y) :
    ∃ es l', l.unlinkAll = (es, l') ∧ es.Perm y.linked ∧
      Laid l' { y with linked := [], retired := es.reverse ++ y.retired } ∧
      (∀ id, l'.core? id = l.core? id) ∧ l'.used = l.used := by
  have hspec := unlinkWhile_spec first? (fun _ => true)
    (fun h e he => ⟨List.mem_of_mem_head? (h.first?_eq ▸ he), rfl⟩)
    (fun h hnone e he => by
      rw [h.first?_eq, List.head?_eq_none_iff] at hnone
      rw [hnone] at he
      cases he)
    l.count h (by rw [h.count]; exact List.length_filter_le ..)
  simpa [unlinkAll] using hspec

theorem unlinkBetween_spec (h : Laid l y) (low high : Addr) :
    ∃ es l', l.unlinkBetween low high = (es, l') ∧
      es.Perm (y.linked.filter fun e => low ≤ e.key && e.key ≤ high) ∧
      Laid l' { y with
        linked := y.linked.filter fun e => !(low ≤ e.key && e.key ≤ high)
        retired := es.reverse ++ y.retired } ∧
      (∀ id, l'.core? id = l.core? id) ∧ l'.used = l.used := by
  refine unlinkWhile_spec _ (fun e => low ≤ e.key && e.key ≤ high) (fun {l y} h e he => ?_)
    (fun {l y} h hnone e he => ?_) _ h
    (by rw [h.count]; exact List.length_filter_le ..)
  · obtain ⟨hfloor, hlow⟩ := Option.filter_eq_some_iff.mp he
    rw [h.floor?_eq] at hfloor
    obtain ⟨he, hhigh⟩ := List.mem_filter.mp (List.mem_of_getLast? hfloor)
    exact ⟨he, by simp_all⟩
  · rw [h.floor?_eq, Option.filter_eq_none_iff] at hnone
    by_contra hin
    simp only [Bool.not_eq_false, Bool.and_eq_true, decide_eq_true_eq] at hin
    have hmem : e ∈ y.linked.filter fun f => decide (f.key ≤ high) :=
      List.mem_filter.mpr ⟨he, by simpa using hin.2⟩
    -- the entry looked at has a key between this one's and `high`
    obtain ⟨last, hlast⟩ : ∃ last,
        (y.linked.filter fun f => decide (f.key ≤ high)).getLast? = some last :=
      ⟨_, List.getLast?_eq_some_getLast (List.ne_nil_of_mem hmem)⟩
    have hle := le_getLast? (h.sorted.sublist List.filter_sublist) hlast hmem
    exact hnone last hlast (by simpa using UInt64.le_trans hin.1 hle)

end Laid

end SkipList

end JitIndex
