import JitIndex.Proofs.SkipList.Layout
import JitIndex.Proofs.SkipList.Sorted

/-!
# Searching a laid-out list

A search passes by the entries whose keys pass a test. In a sorted list those
come first, on every level: the entries split into those that pass and those
that do not (`filter_append_filter_not`), and a level splits with them. So a
search that stands at the head or at an entry that passes leaves each level
at its last entry that passes (`Laid.follow_eq`), no matter where it came in,
and the levels above only decide how fast.

- `Laid.floor?_eq`, `Laid.get?_eq`, `Laid.first?_eq`, `Laid.entries_eq`: what
  the look-ups find, in terms of the linked entries;
- `Laid.predecessors_eq`: the last site before a key, level by level.
-/

namespace JitIndex

namespace SkipList

universe u

variable {α : Type u}

theorem ids_getLast? (es : List (Entry α)) : (ids es).getLast? = es.getLast?.map (·.id) :=
  List.getLast?_map ..

/-! ## Following a level -/

/-- A walk along a level stops behind the last slot that passes. -/
theorem follow_eq {l : SkipList α} {passes : Addr → Bool} {level fuel : Nat} {site : Site}
    {before after : List (Entry α)}
    (hv : Visits (fun s => l.next s level) site (ids before ++ ids after))
    (hheld : ∀ e ∈ before ++ after, l.entry? e.id = some e)
    (hbefore : ∀ e ∈ before, passes e.key = true)
    (hafter : ∀ e, after.head? = some e → passes e.key = false)
    (hlen : before.length ≤ fuel) :
    l.follow passes level fuel site = lastSite site (ids before) := by
  induction before generalizing fuel site with
  | nil =>
      have hnext : l.next site level = (ids after).head? := hv.link_eq_head?
      cases fuel with
      | zero => rfl
      | succ fuel =>
          cases after with
          | nil => simp [follow, entryAfter, hnext, ids, lastSite]
          | cons f rest =>
              have hf : l.entry? f.id = some f := hheld f (by simp)
              have hnp : passes f.key = false := hafter f rfl
              simp [follow, entryAfter, hnext, ids, lastSite, hf, hnp]
  | cons e before ih =>
      obtain ⟨hnext, hrest⟩ := hv
      have he : l.entry? e.id = some e := hheld e (by simp)
      have hp : passes e.key = true := hbefore e (by simp)
      have hstep : l.entryAfter site level = some e := by
        rw [entryAfter, show l.next site level = some e.id from hnext]
        exact he
      cases fuel with
      | zero => cases hlen
      | succ fuel =>
          simp only [follow, hstep, hp, if_true]
          exact ih hrest (fun f hf => hheld f (List.mem_cons_of_mem _ hf))
            (fun f hf => hbefore f (List.mem_cons_of_mem _ hf)) (Nat.le_of_succ_le_succ hlen)

namespace Laid

variable {l : SkipList α} {y : Layout α}

theorem linked_sublist (y : Layout α) : (ids y.linked).Sublist y.slots := by
  have h : y.linked.Sublist y.entries :=
    (List.sublist_append_left ..).trans (List.sublist_append_right ..)
  exact (h.map _).trans (List.sublist_append_left ..)

theorem onLevel_zero (h : Laid l y) {es : List (Entry α)} (hsub : ∀ e ∈ es, e ∈ y.linked) :
    l.onLevel 0 es = ids es := by
  unfold onLevel
  rw [List.filter_eq_self.mpr]
  intro e he
  have := (h.tall e (List.mem_append_right _ (hsub e he))).1
  exact decide_eq_true this

/-- Where a search may stand on a level: at the head, or at an entry that
passes and is tall enough. -/
def Reached (l : SkipList α) (level : Nat) (passed : List (Entry α)) (site : Site) : Prop :=
  site = none ∨ ∃ id ∈ l.onLevel level passed, site = some id

theorem reached_getLast? (l : SkipList α) {level lower : Nat} (hle : lower ≤ level)
    (passed : List (Entry α)) : Reached l lower passed (l.onLevel level passed).getLast? := by
  cases hlast : (l.onLevel level passed).getLast? with
  | none => exact Or.inl rfl
  | some id =>
      obtain ⟨e, he, rfl⟩ := mem_ids.mp (List.mem_of_getLast? hlast)
      obtain ⟨he, htall⟩ := List.mem_filter.mp he
      refine Or.inr ⟨e.id, mem_ids.mpr ⟨e, List.mem_filter.mpr ⟨he, ?_⟩, rfl⟩, rfl⟩
      simp only [decide_eq_true_eq] at htall ⊢
      omega

variable {passes : Addr → Bool}

/-- A level runs through the slots of its entries that pass, and then through those of the
others. -/
theorem split_level (h : Laid l y) (hp : Early passes) {level : Nat} (hlevel : level < maxHeight) :
    ∃ before after, l.onLevel level (y.linked.filter fun e => passes e.key) = ids before ∧
      Visits (fun s => l.next s level) none (ids before ++ ids after) ∧
      before.Sublist y.linked ∧ after.Sublist y.linked ∧
      (∀ e ∈ before, passes e.key = true) ∧ ∀ e ∈ after, passes e.key = false := by
  have hv := h.levels level hlevel
  rw [filter_append_filter_not hp h.sorted, onLevel_append] at hv
  refine ⟨_, _, rfl, hv, List.filter_sublist.trans List.filter_sublist,
    List.filter_sublist.trans List.filter_sublist, fun e he => ?_, fun e he => ?_⟩
  · exact (List.mem_filter.mp (List.mem_filter.mp he).1).2
  · simpa using (List.mem_filter.mp (List.mem_filter.mp he).1).2

/-- Wherever a walk along a level starts among what passes, it ends with the last slot of it. -/
theorem follow_eq_getLast? (h : Laid l y) (hp : Early passes) (level : Nat)
    (hlevel : level < maxHeight) {site : Site}
    (hsite : Reached l level (y.linked.filter fun e => passes e.key) site) :
    l.follow passes level l.used site =
      (l.onLevel level (y.linked.filter fun e => passes e.key)).getLast? := by
  obtain ⟨before, after, hbefore, hv, hsub, hsub', hpass, hnot⟩ := h.split_level hp hlevel
  have hheld : ∀ e ∈ y.linked, l.entry? e.id = some e := fun e he => h.held e (linked_sub y e he)
  have hlen : before.length ≤ l.used := by
    simpa [ids] using h.length_le_used ((hsub.map _).trans (linked_sublist y))
  have hafter : ∀ e, after.head? = some e → passes e.key = false := fun e he =>
    hnot e (List.mem_of_mem_head? he)
  unfold Reached at hsite
  rw [hbefore] at hsite ⊢
  rcases hsite with rfl | ⟨id, hid, rfl⟩
  · rw [follow_eq hv ?_ hpass hafter hlen, lastSite_none]
    intro e he
    rcases List.mem_append.mp he with he | he
    · exact hheld e (hsub.subset he)
    · exact hheld e (hsub'.subset he)
  · -- the walk goes on behind an entry that it has passed already
    obtain ⟨e, he, rfl⟩ := mem_ids.mp hid
    obtain ⟨pre, post, rfl⟩ := List.append_of_mem he
    have hpost : ∀ f ∈ post, f ∈ pre ++ e :: post := fun f hf => by simp [hf]
    have hwalk : Visits (fun s => l.next s level) (some e.id) (ids post ++ ids after) := by
      have hv' : Visits (fun s => l.next s level) none
          ((ids pre ++ [e.id]) ++ (ids post ++ ids after)) := by
        simpa [ids] using hv
      have := hv'.suffix
      rwa [lastSite_append] at this
    have hlen' : post.length ≤ l.used := by
      simp only [List.length_append, List.length_cons] at hlen
      omega
    rw [follow_eq hwalk ?_ (fun f hf => hpass f (hpost f hf)) hafter hlen']
    · rw [← lastSite_none]
      simp [ids, lastSite_append, lastSite]
    · intro f hf
      rcases List.mem_append.mp hf with hf | hf
      · exact hheld f (hsub.subset (hpost f hf))
      · exact hheld f (hsub'.subset hf)

/-- A search through all levels ends at the last entry that passes. -/
theorem descend_eq (h : Laid l y) (hp : Early passes) {levels : Nat} {site : Site}
    (hpos : 0 < levels) (hle : levels ≤ maxHeight)
    (hsite : Reached l (levels - 1) (y.linked.filter fun e => passes e.key) site) :
    l.descend passes levels site = (ids (y.linked.filter fun e => passes e.key)).getLast? := by
  induction levels generalizing site with
  | zero => cases hpos
  | succ levels ih =>
      have hleft := h.follow_eq_getLast? hp levels hle hsite
      rw [descend, hleft]
      cases levels with
      | zero =>
          rw [h.onLevel_zero fun e he => (List.mem_filter.mp he).1]
          rfl
      | succ levels =>
          exact ih (Nat.succ_pos _) (Nat.le_of_succ_le hle) (reached_getLast? l (by omega) _)

theorem trail_eq (h : Laid l y) (hp : Early passes) {levels : Nat} {site : Site}
    {above : List Site} (hle : levels ≤ maxHeight)
    (hsite : Reached l (levels - 1) (y.linked.filter fun e => passes e.key) site) :
    l.trail passes levels site above =
      ((List.range levels).map fun level =>
        (l.onLevel level (y.linked.filter fun e => passes e.key)).getLast?) ++ above := by
  induction levels generalizing site above with
  | zero => rfl
  | succ levels ih =>
      have hleft := h.follow_eq_getLast? hp levels hle hsite
      rw [trail, hleft, ih (Nat.le_of_succ_le hle) (reached_getLast? l (by omega) _),
        List.range_succ]
      simp

/-! ## What the look-ups find -/

theorem floor?_eq (h : Laid l y) (key : Addr) :
    l.floor? key = (y.linked.filter fun e => e.key ≤ key).getLast? := by
  unfold floor?
  rw [h.descend_eq (early_le key) (by decide) (Nat.le_refl _) (Or.inl rfl), ids_getLast?]
  cases hlast : (y.linked.filter fun e => decide (e.key ≤ key)).getLast? with
  | none => simp
  | some e =>
      have he := (List.mem_filter.mp (List.mem_of_getLast? hlast)).1
      exact h.held e (linked_sub y e he)

theorem predecessors_eq (h : Laid l y) (key : Addr) :
    l.predecessors key = (List.range maxHeight).map fun level =>
      (l.onLevel level (y.linked.filter fun e => e.key < key)).getLast? := by
  unfold predecessors
  rw [h.trail_eq (early_lt key) (Nat.le_refl _) (Or.inl rfl), List.append_nil]

theorem next_none_zero (h : Laid l y) : l.next none 0 = y.linked.head?.map (·.id) := by
  have hv := h.levels 0 (by decide)
  rw [h.onLevel_zero fun e he => he] at hv
  rw [show l.next none 0 = (ids y.linked).head? from hv.link_eq_head?]
  exact List.head?_map ..

theorem first?_eq (h : Laid l y) : l.first? = y.linked.head? := by
  unfold first? entryAfter
  rw [h.next_none_zero]
  cases hhead : y.linked.head? with
  | none => rfl
  | some e => exact h.held e (linked_sub y e (List.mem_of_mem_head? hhead))

/-- An iteration goes through the entries that hang off its next slot, one per step. -/
theorem entriesFrom_eq {fuel : Nat} {es : List (Entry α)} {c : Cursor}
    (hv : Visits (chainOf c.upcoming fun id => l.next (some id) 0) none (ids es))
    (hheld : ∀ e ∈ es, l.entry? e.id = some e) : l.entriesFrom fuel c = es.take fuel := by
  induction es generalizing fuel c with
  | nil =>
      have hc : c.upcoming = none := hv
      cases fuel with
      | zero => rfl
      | succ fuel => simp [entriesFrom, advance?, hc]
  | cons e es ih =>
      obtain ⟨hhead, hrest⟩ := hv.pop
      have he : l.entry? e.id = some e := hheld e (List.mem_cons_self ..)
      have hstep : l.advance? c = some (e, ⟨l.next (some e.id) 0⟩) := by
        simp [advance?, hhead, he]
      cases fuel with
      | zero => rfl
      | succ fuel =>
          have hleft : l.entriesFrom fuel ⟨l.next (some e.id) 0⟩ = es.take fuel :=
            ih hrest fun f hf => hheld f (List.mem_cons_of_mem _ hf)
          simp only [entriesFrom, hstep, hleft, List.take_succ_cons]

theorem entriesFrom_cursor (h : Laid l y) (fuel : Nat) :
    l.entriesFrom fuel l.cursor = y.linked.take fuel := by
  have hv := h.levels 0 (by decide)
  rw [h.onLevel_zero fun e he => he] at hv
  refine entriesFrom_eq ?_ fun e he => h.held e (linked_sub y e he)
  exact hv.congr rfl fun id _ => rfl

theorem entries_eq (h : Laid l y) : l.entries = y.linked := by
  refine (h.entriesFrom_cursor l.used).trans (List.take_of_length_le ?_)
  simpa [ids] using h.length_le_used (linked_sublist y)

theorem get?_eq (h : Laid l y) (key : Addr) :
    l.get? key = y.linked.find? fun e => e.key == key := by
  unfold get?
  rw [h.floor?_eq, getLast?_filter_le h.sorted]

end Laid

end SkipList

end JitIndex
