import JitIndex.Proofs.SkipList.Editing
import Mathlib.Data.Set.Basic

/-!
# An iteration while the list is edited

An iteration goes along the links of level 0, from a slot that it read before
the list was edited to the next one. What carries it is an invariant of all
nodes that were linked at some time since it began (`Trail`): as long as such
a node is not released, its link leads to another one of them with a greater
key (`Onward.leads`), and past no key that was bound all the time
(`Onward.passes`). A linked node has this by the order of the list; and when a
node is unlinked, its link is spared, so that it keeps what it had.

`Course` adds where the iteration is and what it came to. It begins as a
course (`Course.start`), and stays one while the list is edited
(`Course.edited`) and when the iteration is advanced (`Course.advance`).
-/

namespace JitIndex

namespace SkipList

universe u

variable {α : Type u} {l l' : SkipList α} {y : Layout α} {seen seen' : Set (Entry α)}
  {kept kept' : Set Addr} {last : Option Addr} {target : Option SlotId}

/-! ## Where one link leads -/

/-- A link at a place behind the key `last`, or at the head, leads on to a seen entry behind that
place, if it leads anywhere, and past none of the kept keys. -/
structure Onward (seen : Set (Entry α)) (kept : Set Addr) (last : Option Addr)
    (target : Option SlotId) : Prop where
  leads : ∀ id, target = some id → ∃ e ∈ seen, e.id = id ∧ ∀ k ∈ last, k < e.key
  passes : ∀ k ∈ kept, (∀ k' ∈ last, k' < k) → ∃ e ∈ seen, target = some e.id ∧ e.key ≤ k

theorem Onward.mono (h : Onward seen kept last target) (hseen : seen ⊆ seen')
    (hkept : kept' ⊆ kept) : Onward seen' kept' last target := by
  constructor
  · intro id hid
    obtain ⟨e, he, hfound⟩ := h.leads id hid
    exact ⟨e, hseen he, hfound⟩
  · intro k hk hlast
    obtain ⟨e, he, hfound⟩ := h.passes k (hkept hk) hlast
    exact ⟨e, hseen he, hfound⟩

/-- Among the linked entries, a link leads to the next one. -/
theorem Laid.onward (h : Laid l y) {below above : List (Entry α)}
    (hsplit : y.linked = below ++ above) (hseen : ∀ e ∈ y.linked, e ∈ seen)
    (hkept : ∀ k ∈ kept, ∃ e ∈ y.linked, e.key = k) :
    Onward seen kept (below.getLast?.map (·.key)) (l.next (ids below).getLast? 0) := by
  have hbelow : l.onLevel 0 below = ids below :=
    h.onLevel_zero fun e he => hsplit ▸ List.mem_append_left _ he
  have habove : l.onLevel 0 above = ids above :=
    h.onLevel_zero fun e he => hsplit ▸ List.mem_append_right _ he
  have hnext := h.next_getLast? hsplit (show 0 < maxHeight by decide)
  rw [hbelow, habove] at hnext
  have hsorted := h.sorted
  rw [hsplit] at hsorted
  obtain ⟨hsorted₁, hsorted₂, hcross⟩ := List.pairwise_append.mp hsorted
  rw [hnext]
  constructor
  · intro id hid
    obtain ⟨e, he, hid⟩ := List.mem_map.mp (List.mem_of_mem_head? hid)
    refine ⟨e, hseen e (hsplit ▸ List.mem_append_right _ he), hid, fun k hk => ?_⟩
    obtain ⟨f, hf, rfl⟩ := Option.map_eq_some_iff.mp hk
    exact hcross f (List.mem_of_getLast? hf) e he
  · intro k hk hlast
    obtain ⟨e, he, rfl⟩ := hkept k hk
    -- a key behind the last one below is above
    have he : e ∈ above := by
      rw [hsplit] at he
      refine (List.mem_append.mp he).resolve_left fun hmem => ?_
      exact UInt64.lt_irrefl _ (lt_of_getLast?_lt hsorted₁ hlast hmem)
    cases above with
    | nil => cases he
    | cons f rest =>
        refine ⟨f, hseen f (by simp [hsplit]), rfl, ?_⟩
        rcases List.mem_cons.mp he with rfl | he
        · exact UInt64.le_refl _
        · exact UInt64.le_of_lt ((List.pairwise_cons.mp hsorted₂).1 e he)

/-! ## The links of all nodes that were seen -/

/-- Every entry of the list was seen and every kept key is bound, and whoever stands on a seen
entry that was not released is led on. -/
structure Trail (l : SkipList α) (seen : Set (Entry α)) (kept : Set Addr) : Prop where
  linked : ∀ e ∈ l.entries, e ∈ seen
  bound : ∀ k ∈ kept, ∃ e ∈ l.entries, e.key = k
  used : ∀ e ∈ seen, e.id.val ≤ l.used
  onward : ∀ e ∈ seen, l.entry? e.id = some e → e.id ∉ l.freeSlots →
    Onward seen kept (some e.key) (l.next (some e.id) 0)

theorem Laid.onward_linked (h : Laid l y) {e : Entry α} (he : e ∈ y.linked)
    (hseen : ∀ e ∈ y.linked, e ∈ seen) (hkept : ∀ k ∈ kept, ∃ e ∈ y.linked, e.key = k) :
    Onward seen kept (some e.key) (l.next (some e.id) 0) := by
  obtain ⟨below, above, hsplit⟩ := List.append_of_mem he
  have hsplit' : y.linked = (below ++ [e]) ++ above := by simpa using hsplit
  simpa [ids] using h.onward hsplit' hseen hkept

theorem Laid.trail (h : Laid l y) :
    Trail l {e | e ∈ l.entries} {k | ∃ e ∈ l.entries, e.key = k} := by
  rw [h.entries_eq]
  refine ⟨fun e he => h.entries_eq ▸ he, fun k hk => h.entries_eq ▸ hk,
    fun e he => h.mem_used (linked_sub y e he), fun e he _ _ => ?_⟩
  exact h.onward_linked he (fun _ he => he) fun _ hk => hk

namespace Trail

variable {y' : Layout α}

/-- What is spared is led on as before, and what is linked by the order of the list. -/
theorem step (ht : Trail l seen kept) (hs : Spares l l') (h' : Laid l' y') (hkept : kept' ⊆ kept)
    (hbound : ∀ k ∈ kept', ∃ e ∈ l'.entries, e.key = k) :
    Trail l' (seen ∪ {e | e ∈ l'.entries}) kept' := by
  have hentries := h'.entries_eq
  refine ⟨fun e he => Or.inr he, hbound, ?_, fun e he hheld hfree => ?_⟩
  · rintro e (he | he)
    · exact Nat.le_trans (ht.used e he) hs.used
    · exact h'.mem_used (Laid.linked_sub y' e (hentries ▸ he))
  · by_cases hlinked : e.id ∈ ids l'.entries
    · obtain ⟨f, hf, hid⟩ := mem_ids.mp hlinked
      rw [hentries] at hf
      -- one slot holds one entry
      have hsame := h'.held f (Laid.linked_sub y' f hf)
      rw [hid, hheld] at hsame
      obtain rfl := Option.some.inj hsame
      exact h'.onward_linked hf (fun g hg => Or.inr (hentries.symm ▸ hg)) (hentries ▸ hbound)
    · have he : e ∈ seen := he.resolve_right fun he => hlinked (List.mem_map_of_mem he)
      obtain ⟨hfree', hcore, hnext⟩ := hs.spared e.id (ht.used e he) hlinked hfree
      rw [entry_eq_core, hcore, ← entry_eq_core] at hheld
      rw [hnext]
      exact (ht.onward e he hheld hfree').mono Set.subset_union_left hkept

/-- When nothing is linked, nothing more is seen. -/
theorem pruned (ht : Trail l seen kept) (h : Laid l y) (hp : Pruned l l') (hkept : kept' ⊆ kept)
    (hbound : ∀ k ∈ kept', ∃ e ∈ l'.entries, e.key = k) : Trail l' seen kept' := by
  induction hp generalizing kept' with
  | refl =>
      refine ⟨ht.linked, hbound, ht.used, fun e he hheld hfree => ?_⟩
      exact (ht.onward e he hheld hfree).mono (Set.Subset.refl _) hkept
  | @tail l₁ l' hbefore hprune ih =>
      obtain ⟨y₁, h₁, -, -⟩ := h.pruned hbefore
      obtain ⟨y', h', -, hsub, hs⟩ := h₁.prune hprune
      rw [← h₁.entries_eq, ← h'.entries_eq] at hsub
      have ht₁ := ih hkept fun k hk => by
        obtain ⟨e, he, hkey⟩ := hbound k hk
        exact ⟨e, hsub he, hkey⟩
      have hseen : {e | e ∈ l'.entries} ⊆ seen := fun e he => ht₁.linked e (hsub he)
      rw [← Set.union_eq_self_of_subset_right hseen]
      exact ht₁.step hs h' (Set.Subset.refl _) hbound

theorem tidied (ht : Trail l seen kept) (h : Laid l y) (hready : y.pending = [])
    (hp : Tidied l l') :
    ∃ y', Laid l' y' ∧ y'.pending = [] ∧ l'.entries = l.entries ∧ Trail l' seen kept := by
  obtain ⟨y', h', hready', hlinked⟩ := h.tidied hp
  have hentries : l'.entries = l.entries := by rw [h'.entries_eq, hlinked, h.entries_eq]
  exact ⟨y', h', hready'.trans hready, hentries,
    ht.pruned h hp.pruned (Set.Subset.refl _) (hentries ▸ ht.bound)⟩

/-- After an edit, the entries of the list were seen as well, and the keys that are still bound
were kept. -/
theorem edited [Inhabited α] (ht : Trail l seen kept) (h : Laid l y) (hready : y.pending = [])
    (he : Edited l l') :
    Trail l' (seen ∪ {e | e ∈ l'.entries}) {k | k ∈ kept ∧ ∃ e ∈ l'.entries, e.key = k} := by
  cases he with
  | pruned hp =>
      obtain ⟨y', h', -, hsub⟩ := h.pruned hp
      rw [← h.entries_eq, ← h'.entries_eq] at hsub
      have hseen : {e | e ∈ l'.entries} ⊆ seen := fun e he => ht.linked e (hsub he)
      rw [Set.union_eq_self_of_subset_right hseen]
      exact ht.pruned h hp (fun _ hk => hk.1) fun _ hk => hk.2
  | inserted hbefore hinsert hafter =>
      obtain ⟨y₁, h₁, hready₁, hentries₁, ht₁⟩ := ht.tidied h hready hbefore
      obtain ⟨y₂, h₂, hready₂, hmore, hs⟩ := h₁.insertion hready₁ hinsert
      have ht₂ := ht₁.step hs h₂ (Set.Subset.refl _) fun k hk => by
        obtain ⟨e, he, rfl⟩ := ht₁.bound k hk
        rw [h₁.entries_eq] at he
        rw [h₂.entries_eq]
        exact hmore e he
      obtain ⟨y', h', -, hentries, -⟩ := ht₂.tidied h₂ hready₂ hafter
      rw [hentries]
      exact ht₂.pruned h₂ hafter.pruned (fun _ hk => hk.1) fun _ hk => hentries ▸ hk.2

end Trail

/-! ## Where the iteration is -/

/-- An iteration came to the entries `es` and goes on from `c`. Every kept key is among those or
lies ahead. -/
structure Course (l : SkipList α) (seen : Set (Entry α)) (kept : Set Addr) (c : Cursor)
    (es : List (Entry α)) : Prop where
  trail : Trail l seen kept
  onward : Onward seen kept (es.getLast?.map (·.key)) c.upcoming
  ascending : es.Pairwise fun a b => a.key < b.key
  seen : ∀ e ∈ es, e ∈ seen
  passed : ∀ k ∈ kept, (∃ e ∈ es, e.key = k) ∨ ∀ k' ∈ es.getLast?.map (·.key), k' < k

namespace Course

variable {c c' : Cursor} {es : List (Entry α)} {e : Entry α}

theorem start (h : Laid l y) :
    Course l {e | e ∈ l.entries} {k | ∃ e ∈ l.entries, e.key = k} l.cursor [] where
  trail := h.trail
  onward := by
    have hsplit : y.linked = [] ++ y.linked := rfl
    rw [h.entries_eq]
    exact h.onward hsplit (fun _ he => he) fun _ hk => hk
  ascending := List.Pairwise.nil
  seen _ he := absurd he List.not_mem_nil
  passed _ _ := Or.inr (by rintro _ ⟨⟩)

theorem edited [Inhabited α] (hc : Course l seen kept c es) (h : Laid l y) (hready : y.pending = [])
    (he : Edited l l') :
    Course l' (seen ∪ {e | e ∈ l'.entries}) {k | k ∈ kept ∧ ∃ e ∈ l'.entries, e.key = k} c es where
  trail := hc.trail.edited h hready he
  onward := hc.onward.mono Set.subset_union_left fun _ hk => hk.1
  ascending := hc.ascending
  seen e he := Or.inl (hc.seen e he)
  passed k hk := hc.passed k hk.1

section

variable (hc : Course l seen kept c es)
  (hheld : ∀ e ∈ seen, l.entry? e.id = some e ∧ e.id ∉ l.freeSlots)
include hc hheld

/-- The slot that is read next holds an entry that was seen, behind all that the iteration has come
to. -/
theorem advance?_eq {id : SlotId} (hid : c.upcoming = some id) :
    ∃ e ∈ seen, e.id = id ∧ (∀ k ∈ es.getLast?.map (·.key), k < e.key) ∧
      l.advance? c = some (e, ⟨l.next (some id) 0⟩) := by
  obtain ⟨e, he, rfl, hlast⟩ := hc.onward.leads id hid
  refine ⟨e, he, rfl, hlast, ?_⟩
  simp [advance?, hid, (hheld e he).1]

theorem advance (hstep : l.advance? c = some (e, c')) : Course l seen kept c' (es ++ [e]) := by
  cases hid : c.upcoming with
  | none => simp [advance?, hid] at hstep
  | some id =>
      obtain ⟨f, hf, rfl, hlast, hrun⟩ := hc.advance?_eq hheld hid
      obtain ⟨rfl, rfl⟩ := Prod.mk.inj (Option.some.inj (hrun.symm.trans hstep))
      refine ⟨hc.trail, ?_, ?_, ?_, fun k hk => ?_⟩
      · rw [List.getLast?_concat]
        exact hc.trail.onward f hf (hheld f hf).1 (hheld f hf).2
      · refine List.pairwise_append.mpr ⟨hc.ascending, List.pairwise_singleton .., ?_⟩
        intro g hg f' hf'
        rw [List.mem_singleton.mp hf']
        exact lt_of_getLast?_lt hc.ascending hlast hg
      · intro g hg
        rcases List.mem_append.mp hg with hg | hg
        · exact hc.seen g hg
        · exact List.mem_singleton.mp hg ▸ hf
      · rw [List.getLast?_concat]
        rcases hc.passed k hk with ⟨g, hg, hkey⟩ | hahead
        · exact Or.inl ⟨g, List.mem_append_left _ hg, hkey⟩
        · -- the entry that the iteration came to does not lie behind the key
          obtain ⟨g, hg, hid', hle⟩ := hc.onward.passes k hk hahead
          obtain hsame : f.id = g.id := Option.some.inj (hid.symm.trans hid')
          have hheld' := (hheld g hg).1
          rw [← hsame, (hheld f hf).1] at hheld'
          obtain rfl := Option.some.inj hheld'
          by_cases hkey : f.key = k
          · exact Or.inl ⟨f, List.mem_append_right _ (List.mem_singleton_self f), hkey⟩
          · refine Or.inr fun k' hk' => ?_
            obtain rfl := Option.some.inj hk'
            exact UInt64.lt_of_le_of_ne hle hkey

/-- An iteration that is at its end has come to every kept key. -/
theorem complete (hend : l.advance? c = none) {k : Addr} (hk : k ∈ kept) : ∃ e ∈ es, e.key = k := by
  refine (hc.passed k hk).resolve_right fun hahead => ?_
  obtain ⟨e, he, hid, -⟩ := hc.onward.passes k hk hahead
  obtain ⟨f, -, -, -, hrun⟩ := hc.advance?_eq hheld hid
  cases hrun.symm.trans hend

end

end Course

end SkipList

end JitIndex
