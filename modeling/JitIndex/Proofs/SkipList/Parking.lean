import JitIndex.Proofs.SkipList.Update
import JitIndex.SkipList.Parking

/-!
# Parked slots of a laid-out list

What is parked moves from one stage to the next as a whole. The loops that
move it take one slot at a time off one chain and push it on another, and
since a slot is in one place only, neither chain notices what happens to the
fields of the other.
-/

namespace JitIndex

namespace SkipList

universe u

variable {α : Type u}

namespace Layout

variable (y : Layout α)

theorem retired_sublist : y.retired.Sublist y.entries :=
  (List.sublist_append_left ..).trans <| (List.sublist_append_right ..).trans
    (List.sublist_append_right ..)

theorem sealed_sublist : y.sealed.Sublist y.entries :=
  (List.sublist_append_left ..).trans <| (List.sublist_append_right ..).trans <|
    (List.sublist_append_right ..).trans (List.sublist_append_right ..)

theorem orphans_sublist : y.orphans.Sublist y.entries :=
  (List.sublist_append_right ..).trans <| (List.sublist_append_right ..).trans <|
    (List.sublist_append_right ..).trans (List.sublist_append_right ..)

end Layout

namespace Laid

variable {l l' : SkipList α} {y : Layout α}

theorem length_ids_le (h : Laid l y) {es : List (Entry α)} (hes : es.Sublist y.entries) :
    (ids es).length ≤ l.used :=
  h.length_le_used ((hes.map _).trans (List.sublist_append_left ..))

theorem hasRetired_eq (h : Laid l y) : l.hasRetired = !y.retired.isEmpty := by
  have hvis := h.retired
  unfold hasRetired
  rw [show l.retired = (ids y.retired).head? from hvis.link_eq_head?]
  cases y.retired <;> rfl

theorem hasSealed_eq (h : Laid l y) : l.hasSealed = !y.sealed.isEmpty := by
  have hvis := h.sealed
  unfold hasSealed
  rw [show l.sealed = (ids y.sealed).head? from hvis.link_eq_head?]
  cases y.sealed <;> rfl

theorem sealRetired_laid (h : Laid l y) (hnone : y.sealed = []) :
    Laid l.sealRetired { y with retired := [], sealed := y.retired } := by
  refine h.rearranged (fun _ => rfl) rfl ?_ ?_ (List.Subset.refl _) h.sorted h.levels h.free
    visits_chainOf_none h.retired h.orphans h.count
  · rw [List.perm_iff_count]
    intro id
    simp only [Layout.slots, Layout.entries, ids, hnone, List.map_append, List.map_nil,
      List.count_append, List.count_nil]
    omega
  · intro e he
    simp only [Layout.entries, hnone, List.mem_append, List.not_mem_nil, false_or] at he ⊢
    tauto

/-- One sealed slot becomes the first of the free ones. -/
theorem reclaim_one (h : Laid l y) {e : Entry α} {rest : List (Entry α)}
    (hsealed : y.sealed = e :: rest) {n : Node α} (hn : l.node? e.id = some n) :
    Laid { l.setNext (some e.id) 0 l.free with sealed := n.parked, free := some e.id }
      { y with sealed := rest, free := e.id :: y.free } := by
  have he : e ∈ y.entries := by simp [Layout.entries, hsealed]
  have hstands : l.Stands (some e.id) := fun id hid => Option.some.inj hid ▸ h.node?_isSome he
  have hrel := relinked_setNext l (some e.id) 0 l.free
  have hnext := next_setNext hstands (show 0 < maxHeight by decide) l.free
  have hvis := h.sealed
  rw [hsealed] at hvis
  obtain ⟨hfirst, hrest⟩ := hvis.pop
  rw [show l.parkedAfter e.id = n.parked by simp [parkedAfter, hn]] at hrest
  refine h.rearranged hrel.core rfl ?_ ?_ (List.Subset.refl _) h.sorted ?_ ?_ ?_ ?_ ?_ h.count
  · rw [List.perm_iff_count]
    intro id
    simp only [Layout.slots, Layout.entries, ids, hsealed, List.map_append, List.map_cons,
      List.count_append, List.count_cons]
    omega
  · intro f hf
    simp only [Layout.entries, hsealed, List.mem_append, List.mem_cons] at hf ⊢
    tauto
  · intro v hv
    refine (h.levels v hv).congr ((hnext none v).trans (if_neg (by simp))) fun x hx => ?_
    obtain ⟨f, hf, rfl⟩ := mem_ids.mp ((onLevel_sublist l v y.linked).subset hx)
    have hne : f.id ≠ e.id :=
      (h.ne_of_linked hf (Or.inr (Or.inl (by simp [hsealed, ids])))).symm
    exact (hnext (some f.id) v).trans (if_neg (by simp [hne]))
  · refine h.free.push ((hnext (some e.id) 0).trans (if_pos ⟨rfl, rfl⟩)) fun x hx => ?_
    have hne := h.ne_of_free hx he
    exact (hnext (some x) 0).trans (if_neg (by simp [hne]))
  · exact h.retired.congr_next fun x _ => hrel.parkedAfter x
  · exact hrest.congr_next fun x _ => hrel.parkedAfter x
  · exact h.orphans.congr_next fun x _ => hrel.parkedAfter x

theorem reclaimSome_eq : ∀ {fuel : Nat} {l : SkipList α} {y : Layout α}, Laid l y →
    y.sealed.length ≤ fuel →
    ∃ l', l.reclaimSome fuel = (y.sealed, l') ∧
      Laid l' { y with sealed := [], free := (ids y.sealed).reverse ++ y.free } ∧
      (∀ id, l'.core? id = l.core? id) ∧ l'.used = l.used := by
  intro fuel
  induction fuel with
  | zero =>
      intro l y h hlen
      have hnil := List.eq_nil_of_length_eq_zero (Nat.le_zero.mp hlen)
      refine ⟨l, by rw [hnil]; rfl, ?_, fun _ => rfl, rfl⟩
      obtain ⟨pending, linked, retired, _, orphans, free, gone⟩ := y
      obtain rfl : _ = [] := hnil
      exact h
  | succ fuel ih =>
      intro l y h hlen
      obtain ⟨pending, linked, retired, sealed, orphans, free, gone⟩ := y
      cases sealed with
      | nil =>
          refine ⟨l, ?_, h, fun _ => rfl, rfl⟩
          rw [reclaimSome, show l.sealed = none from h.sealed]
      | cons e rest =>
          have he := h.held e (by simp [Layout.entries])
          obtain ⟨n, hn, hentry⟩ := Option.map_eq_some_iff.mp he
          obtain ⟨l', hrun, hlaid, hcore, hused⟩ :=
            ih (h.reclaim_one rfl hn) (Nat.le_of_succ_le_succ hlen)
          refine ⟨l', ?_, ?_, fun id => (hcore id).trans ((relinked_setNext ..).core id), hused⟩
          · rw [reclaimSome, show l.sealed = some e.id from h.sealed.1]
            simp only [hn, hrun, hentry]
          · simpa [ids] using hlaid

theorem reclaim_eq (h : Laid l y) :
    ∃ l', l.reclaim = (y.sealed, l') ∧
      Laid l' { y with sealed := [], free := (ids y.sealed).reverse ++ y.free } ∧
      (∀ id, l'.core? id = l.core? id) ∧ l'.used = l.used := by
  refine h.reclaimSome_eq ?_
  simpa [ids] using h.length_ids_le y.sealed_sublist

/-! ## Orphans -/

/-- `l'` differs from `l` at most in which slots are parked where. -/
structure Reparked (l l' : SkipList α) : Prop where
  core : ∀ id, l'.core? id = l.core? id
  next : ∀ site level, l'.next site level = l.next site level
  used : l'.used = l.used
  free : l'.free = l.free
  retired : l'.retired = l.retired
  sealed : l'.sealed = l.sealed
  count : l'.count = l.count

theorem Reparked.trans {l l' l'' : SkipList α} (h : Reparked l l') (h' : Reparked l' l'') :
    Reparked l l'' :=
  ⟨fun id => (h'.core id).trans (h.core id), fun s v => (h'.next s v).trans (h.next s v),
   h'.used.trans h.used, h'.free.trans h.free, h'.retired.trans h.retired,
   h'.sealed.trans h.sealed, h'.count.trans h.count⟩

theorem reparked_orphan (l : SkipList α) (x : SlotId) :
    Reparked l { l.setParked x l.orphans with orphans := some x } := by
  refine ⟨core?_setParked l x l.orphans, fun s v => ?_, rfl, rfl, rfl, rfl, rfl⟩
  cases s with
  | none => rfl
  | some z => exact next_setParked l x l.orphans (some z) v

/-- The slots of a chain become orphans one by one, so the last one comes first. -/
theorem strand_eq (fuel : Nat) {l : SkipList α} {head : Option SlotId} {xs os : List SlotId}
    (hx : Visits (chainOf head l.parkedAfter) none xs)
    (ho : Visits (chainOf l.orphans l.parkedAfter) none os) (hnd : (xs ++ os).Nodup)
    (hpresent : ∀ x ∈ xs, (l.node? x).isSome) (hlen : xs.length ≤ fuel) :
    Visits (chainOf (l.strand fuel head).orphans (l.strand fuel head).parkedAfter) none
      (xs.reverse ++ os) ∧
    (∀ x ∉ xs, x ∉ os → (l.strand fuel head).parkedAfter x = l.parkedAfter x) ∧
    Reparked l (l.strand fuel head) := by
  induction xs generalizing fuel l head os with
  | nil =>
      obtain rfl : head = none := hx
      have hnone : l.strand fuel none = l := by
        cases fuel <;> rfl
      rw [hnone]
      exact ⟨ho, fun _ _ _ => rfl, fun _ => rfl, fun _ _ => rfl, rfl, rfl, rfl, rfl, rfl⟩
  | cons x xs ih =>
      obtain ⟨rfl, hrest⟩ := hx.pop
      have hnode := hpresent x (List.mem_cons_self ..)
      obtain ⟨n, hn⟩ := Option.isSome_iff_exists.mp hnode
      rw [show l.parkedAfter x = n.parked by simp [parkedAfter, hn]] at hrest
      obtain ⟨m, hm⟩ : ∃ m, { l.setParked x l.orphans with orphans := some x } = m := ⟨_, rfl⟩
      have hrep : Reparked l m := hm ▸ reparked_orphan l x
      have hparked : ∀ z, m.parkedAfter z = if z = x then l.orphans else l.parkedAfter z :=
        hm ▸ parkedAfter_setParked hnode _
      obtain ⟨hx', -⟩ := List.nodup_cons.mp (show (x :: (xs ++ os)).Nodup from hnd)
      have hother : ∀ z ∈ xs ++ os, m.parkedAfter z = l.parkedAfter z := fun z hz => by
        rw [hparked, if_neg]
        rintro rfl
        exact hx' hz
      have horphans : Visits (chainOf m.orphans m.parkedAfter) none (x :: os) := by
        rw [show m.orphans = some x by rw [← hm]]
        exact ho.push ((hparked x).trans (if_pos rfl)) fun z hz =>
          hother z (List.mem_append_right _ hz)
      obtain ⟨fuel, rfl⟩ : ∃ n, fuel = n + 1 := Nat.exists_eq_succ_of_ne_zero
        (Nat.ne_of_gt (Nat.lt_of_lt_of_le (Nat.succ_pos _) hlen))
      obtain ⟨hvis, hframe, hrun⟩ := ih fuel
        (hrest.congr_next fun z hz => hother z (List.mem_append_left _ hz)) horphans
        (List.nodup_middle.mpr hnd)
        (fun z hz => by
          rw [← core?_isSome, hrep.core, core?_isSome]
          exact hpresent z (List.mem_cons_of_mem _ hz))
        (Nat.le_of_succ_le_succ hlen)
      have hstep : l.strand (fuel + 1) (some x) = m.strand fuel n.parked := by
        rw [strand, hn, ← hm]
      rw [hstep]
      refine ⟨by simpa using hvis, fun z hz hzo => ?_, hrep.trans hrun⟩
      obtain ⟨hne, hz⟩ := not_or.mp fun h => hz (List.mem_cons.mpr h)
      rw [hframe z hz (by simp [hne, hzo]), hparked, if_neg hne]

/-- The two chains are pushed on the orphans, one after the other. -/
theorem orphan_visits (h : Laid l y) :
    Visits (chainOf l.orphan.orphans l.orphan.parkedAfter) none
      ((ids y.retired).reverse ++ ((ids y.sealed).reverse ++ ids y.orphans)) ∧
    Reparked { l with sealed := none, retired := none } l.orphan := by
  have hnd := h.nodup_ids
  simp only [Layout.entries, ids_append] at hnd
  have hnd' := (List.nodup_append.mp (List.nodup_append.mp hnd).2.1).2.1
  obtain ⟨-, hnd'', hcross⟩ := List.nodup_append.mp hnd'
  have hnode : ∀ es : List (Entry α), es.Sublist y.entries → ∀ x ∈ ids es, (l.node? x).isSome := by
    intro es hes x hx
    obtain ⟨e, he, rfl⟩ := mem_ids.mp hx
    exact h.node?_isSome (hes.subset he)
  -- the sealed slots first
  obtain ⟨hvis₁, hframe₁, hrep₁⟩ := strand_eq l.used
    (l := { l with sealed := none, retired := none }) h.sealed h.orphans hnd''
    (hnode _ y.sealed_sublist) (h.length_ids_le y.sealed_sublist)
  obtain ⟨l₁, hl₁⟩ : ∃ l₁, ({ l with sealed := none, retired := none } : SkipList α).strand
    l.used l.sealed = l₁ := ⟨_, rfl⟩
  rw [hl₁] at hvis₁ hframe₁ hrep₁
  -- and then the retired ones, whose chain is still as it was
  have hretired : Visits (chainOf l.retired l₁.parkedAfter) none (ids y.retired) := by
    refine h.retired.congr_next fun x hx => ?_
    exact hframe₁ x (fun hmem => hcross x hx x (List.mem_append_left _ hmem) rfl)
      fun hmem => hcross x hx x (List.mem_append_right _ hmem) rfl
  have hnd₂ : (ids y.retired ++ ((ids y.sealed).reverse ++ ids y.orphans)).Nodup := by
    refine hnd'.perm (List.Perm.append_left _ (List.Perm.append_right _ ?_))
    exact (List.reverse_perm _).symm
  obtain ⟨hvis₂, -, hrep₂⟩ := strand_eq l.used hretired hvis₁ hnd₂
    (fun x hx => by
      rw [← core?_isSome, hrep₁.core]
      show (l.core? x).isSome
      rw [core?_isSome]
      exact hnode _ y.retired_sublist x hx)
    (h.length_ids_le y.retired_sublist)
  have horphan : l.orphan = l₁.strand l.used l.retired := by rw [orphan, hl₁]
  rw [horphan]
  exact ⟨hvis₂, hrep₁.trans hrep₂⟩

theorem orphan_laid (h : Laid l y) :
    Laid l.orphan { y with
        retired := [], sealed := [],
        orphans := y.retired.reverse ++ (y.sealed.reverse ++ y.orphans) } ∧
      (∀ id, l.orphan.core? id = l.core? id) ∧ l.orphan.used = l.used := by
  obtain ⟨hvis, hrep⟩ := h.orphan_visits
  refine ⟨h.rearranged hrep.core hrep.used ?_ ?_ (List.Subset.refl _) h.sorted ?_ ?_ ?_ ?_ ?_ ?_,
    hrep.core, hrep.used⟩
  · rw [List.perm_iff_count]
    intro id
    simp only [Layout.slots, Layout.entries, ids, List.map_append, List.map_nil,
      List.map_reverse, List.count_append, List.count_nil, List.count_reverse]
    omega
  · intro e he
    simp only [Layout.entries, List.mem_append, List.not_mem_nil, false_or, List.mem_reverse]
      at he ⊢
    tauto
  · intro v hv
    refine (h.levels v hv).congr ((hrep.next none v).trans ?_) fun x _ => ?_
    · rfl
    · exact hrep.next (some x) v
  · rw [hrep.free]
    exact h.free.congr_next fun x _ => hrep.next (some x) 0
  · rw [hrep.retired]
    exact visits_chainOf_none
  · rw [hrep.sealed]
    exact visits_chainOf_none
  · simpa [ids] using hvis
  · rw [hrep.count]
    exact h.count

theorem contentsFrom_eq {fuel : Nat} {head : Option SlotId} {es : List (Entry α)}
    (hvis : Visits (chainOf head l.parkedAfter) none (ids es))
    (hheld : ∀ e ∈ es, l.entry? e.id = some e) (hlen : es.length ≤ fuel) :
    l.contentsFrom fuel head = es := by
  induction es generalizing fuel head with
  | nil =>
      obtain rfl : head = none := hvis
      cases fuel <;> rfl
  | cons e es ih =>
      obtain ⟨rfl, hrest⟩ := hvis.pop
      obtain ⟨n, hn, hentry⟩ := Option.map_eq_some_iff.mp (hheld e (List.mem_cons_self ..))
      rw [show l.parkedAfter e.id = n.parked by simp [parkedAfter, hn]] at hrest
      cases fuel with
      | zero => cases hlen
      | succ fuel =>
          rw [contentsFrom, hn]
          simp only [hentry]
          rw [ih hrest (fun f hf => hheld f (List.mem_cons_of_mem _ hf))
            (Nat.le_of_succ_le_succ hlen)]

theorem drain_eq (h : Laid l y) :
    ∃ l', l.drain = (y.orphans, l') ∧
      Laid l' { y with orphans := [], gone := ids y.orphans ++ y.gone } ∧
      (∀ id, l'.core? id = l.core? id) ∧ l'.used = l.used := by
  refine ⟨{ l with orphans := none }, ?_, ?_, fun _ => rfl, rfl⟩
  · unfold drain
    rw [contentsFrom_eq h.orphans fun e he => h.held e (by simp [Layout.entries, he])]
    simpa [ids] using h.length_ids_le y.orphans_sublist
  · refine h.rearranged (fun _ => rfl) rfl ?_ ?_ (List.Subset.refl _) h.sorted h.levels h.free
      h.retired h.sealed visits_chainOf_none h.count
    · rw [List.perm_iff_count]
      intro id
      simp only [Layout.slots, Layout.entries, ids, List.map_append, List.map_nil,
        List.count_append, List.count_nil]
      omega
    · intro e he
      simp only [Layout.entries, List.mem_append, List.not_mem_nil, or_false] at he ⊢
      tauto

end Laid

/-! ## What stays when slots become free -/

section

variable {l l' l'' : SkipList α}

/-- The slots hold what they held, the numbers are the same, and what was free is not the last of
the free ones. -/
structure Kept (l l' : SkipList α) : Prop where
  core : ∀ id, l'.core? id = l.core? id
  count : l'.count = l.count
  used : l'.used = l.used
  heights : l'.heights = l.heights
  free : l.free.isSome → l'.free.isSome

theorem Kept.refl (l : SkipList α) : Kept l l := ⟨fun _ => rfl, rfl, rfl, rfl, id⟩

theorem Kept.trans (h : Kept l l') (h' : Kept l' l'') : Kept l l'' where
  core id := (h'.core id).trans (h.core id)
  count := h'.count.trans h.count
  used := h'.used.trans h.used
  heights := h'.heights.trans h.heights
  free := h'.free ∘ h.free

theorem reclaimSome_kept (l : SkipList α) (fuel : Nat) : Kept l (l.reclaimSome fuel).2 := by
  induction fuel generalizing l with
  | zero => exact .refl l
  | succ fuel ih =>
      unfold reclaimSome
      split
      · exact .refl l
      · next id _ =>
          split
          · exact .refl l
          · next n _ =>
              have hfreed : Kept l
                  { l.setNext (some id) 0 l.free with sealed := n.parked, free := some id } :=
                ⟨l.core?_setNext (some id) 0 l.free, rfl, rfl, rfl, fun _ => rfl⟩
              exact hfreed.trans (ih _)

theorem sealRetired_kept (l : SkipList α) : Kept l l.sealRetired :=
  ⟨fun _ => rfl, rfl, rfl, rfl, id⟩

end

end SkipList

end JitIndex
