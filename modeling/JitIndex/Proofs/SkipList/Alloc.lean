import JitIndex.Proofs.Books
import JitIndex.Proofs.SkipList.Layout
import JitIndex.SkipList.Update

/-!
# Making a node

A node is made in a slot that was free, or in one that was not handed out
before (`Claimed`). Such a slot is in no place of the layout, so nothing that
the layout speaks of can tell that the slot is filled in; and the new node
waits to be linked. If the slot is refused, nothing happened at all
(`Laid.alloc_cases`).
-/

namespace JitIndex

namespace SkipList

universe u

variable {α : Type u}

def Layout.make (y : Layout α) (e : Entry α) : Layout α :=
  { y with pending := e :: y.pending, free := y.free.tail }

theorem node?_fill (l : SkipList α) (id : SlotId) (key : Addr) (payload : α) (height : Nat)
    (other : SlotId) : (l.fill id key payload height).node? other =
      if id = other then
        (l.node? other).map fun n => { n with key, payload, height, parked := none }
      else l.node? other :=
  Pool.get?_modify ..

/-- The slot `id` was claimed: it is in no place of the layout any more, and nothing else
changed but the free chain. -/
structure Claimed (l : SkipList α) (y : Layout α) (id : SlotId) (c : SkipList α) : Prop where
  fresh : y.free.head? = some id ∨ y.free = [] ∧ l.used < id.val
  present : ∀ x : SlotId, x.val ≤ c.used → (c.node? x).isSome
  same : ∀ x : SlotId, x.val ≤ l.used → c.node? x = l.node? x
  counted : ∀ x, (id :: Layout.slots { y with free := y.free.tail }).count x =
    if x.val ≤ c.used then 1 else 0
  free : Visits (chainOf c.free fun x => l.next (some x) 0) none y.free.tail
  used : l.used ≤ c.used
  head : c.head = l.head
  retired : c.retired = l.retired
  sealed : c.sealed = l.sealed
  orphans : c.orphans = l.orphans
  count : c.count = l.count

namespace Laid

variable {l c : SkipList α} {y : Layout α} {id : SlotId}

/-! ## Claiming a slot -/

theorem claimed_free (h : Laid l y) {rest : List SlotId} (hrest : y.free = id :: rest)
    {n : Node α} (hn : l.node? id = some n) : Claimed l y id { l with free := n.links.next 0 } where
  fresh := Or.inl (by simp [hrest])
  present := h.present
  same _ _ := rfl
  counted x := by
    rw [← h.counted x]
    simp only [Layout.slots, Layout.entries, hrest, List.tail_cons, List.count_append,
      List.count_cons]
    omega
  free := by
    have hvis := h.free
    rw [hrest] at hvis
    have hleft := hvis.pop.2
    rw [show l.next (some id) 0 = n.links.next 0 by simp [next, linksAt, hn]] at hleft
    simpa [hrest] using hleft
  used := Nat.le_refl _
  head := rfl
  retired := rfl
  sealed := rfl
  orphans := rfl
  count := rfl

theorem claimed_new (h : Laid l y) (hfree : l.free = none) (hid : id.val = l.used + 1)
    {p : Pool (Node α)} (hnew : (p.get? id).isSome)
    (hold : ∀ x, (l.nodes.get? x).isSome → p.get? x = l.nodes.get? x) :
    Claimed l y id { l with nodes := p, used := l.used + 1 } := by
  have hsame : ∀ x : SlotId, x.val ≤ l.used → p.get? x = l.node? x := fun x hx =>
    hold x (h.present x hx)
  have hnil : y.free = [] := by
    have hvis := h.free
    rw [hfree] at hvis
    exact hvis.unique visits_chainOf_none
  have hslots : Layout.slots { y with free := y.free.tail } = y.slots := by
    simp only [Layout.slots, Layout.entries, hnil, List.tail_nil]
  refine ⟨Or.inr ⟨hnil, by omega⟩, fun x hx => ?_, hsame, fun x => ?_, ?_, Nat.le_succ _, rfl, rfl,
    rfl, rfl, rfl⟩
  · by_cases hx' : x.val ≤ l.used
    · exact (congrArg Option.isSome (hsame x hx')).trans (h.present x hx')
    · have hxid : x = id := SlotId.eq_of_val (by
        have : x.val ≤ l.used + 1 := hx
        omega)
      rw [hxid]
      exact hnew
  · have hval : (id == x) = true ↔ x.val = l.used + 1 := by
      rw [beq_iff_eq]
      exact ⟨fun heq => heq ▸ hid, fun heq => SlotId.eq_of_val (hid.trans heq.symm)⟩
    rw [hslots, List.count_cons, h.counted]
    show _ = if x.val ≤ l.used + 1 then 1 else 0
    simp only [hval]
    split <;> split <;> split <;> omega
  · rw [hnil, hfree]
    exact visits_chainOf_none

/-- A slot is claimed, or nothing happens at all. -/
theorem claim_cases [Inhabited α] (h : Laid l y) (host : Host) :
    (∃ host', l.claim host = (.error .allocation, l, host') ∧ host'.books = host.books) ∨
    ∃ id c host', l.claim host = (.ok id, c, host') ∧ host'.books = host.books ∧
      Claimed l y id c := by
  unfold claim
  cases hfree : l.free with
  | some id =>
      have hhead := h.free.link_eq_head?
      rw [show chainOf l.free _ none = l.free from rfl, hfree] at hhead
      obtain ⟨rest, hrest⟩ := List.head?_eq_some_iff.mp hhead.symm
      have hmem : id ∈ y.slots := by simp [Layout.slots, hrest]
      obtain ⟨n, hn⟩ := Option.isSome_iff_exists.mp (h.present id (h.mem_slots.mp hmem))
      exact Or.inr ⟨id, _, host, by simp only [hn], rfl, h.claimed_free hrest hn⟩
  | none =>
      dsimp only
      cases hnth : SlotId.nth? l.used with
      | none => exact Or.inl ⟨host, rfl, rfl⟩
      | some id =>
          have hid : id.val = l.used + 1 := by
            unfold SlotId.nth? at hnth
            split at hnth
            · rw [← Option.some.inj hnth]
            · cases hnth
          have hbooks := l.nodes.books_ensure host id fun _ => (.blank : Node α)
          dsimp only
          rcases l.nodes.ensure_cases host id fun _ => (.blank : Node α) with
            ⟨host', heq⟩ | ⟨n, p, host', heq, hnew, hold⟩
          · rw [heq] at hbooks ⊢
            exact Or.inl ⟨host', by rw [← hfree], hbooks⟩
          · rw [heq] at hbooks ⊢
            exact Or.inr ⟨id, _, host', by rw [← hfree], hbooks, h.claimed_new hfree hid hnew hold⟩

end Laid

/-! ## Filling it in -/

section

variable {l c : SkipList α} {y : Layout α} {id : SlotId} (hc : Claimed l y id c) (key : Addr)
  (payload : α) (height : Nat)
include hc

theorem Claimed.not_mem : id ∉ Layout.slots { y with free := y.free.tail } ∧ id.val ≤ c.used := by
  have hone := hc.counted id
  rw [List.count_cons_self] at hone
  rw [← List.count_eq_zero]
  split at hone <;> constructor <;> omega

theorem Claimed.core?_fill :
    (c.fill id key payload height).core? id = some (key, payload, height) := by
  obtain ⟨n, hn⟩ := Option.isSome_iff_exists.mp (hc.present id hc.not_mem.2)
  simp [core?, node?_fill, hn]

theorem Claimed.node?_fill_of_ne {x : SlotId} (hx : x ≠ id) (hle : x.val ≤ l.used) :
    (c.fill id key payload height).node? x = l.node? x := by
  rw [node?_fill, if_neg (Ne.symm hx), hc.same x hle]

/-- Filling a claimed slot in changes nothing that has a place. -/
theorem Claimed.node?_fill_of_mem (h : Laid l y) {x : SlotId}
    (hx : x ∈ Layout.slots { y with free := y.free.tail }) :
    (c.fill id key payload height).node? x = l.node? x := by
  refine hc.node?_fill_of_ne key payload height (fun heq => hc.not_mem.1 (heq ▸ hx))
    (h.mem_slots.mp ?_)
  simp only [Layout.slots, List.mem_append] at hx ⊢
  exact hx.imp_right fun hx => hx.imp_left List.mem_of_mem_tail

end

namespace Laid

variable {l c : SkipList α} {y : Layout α} {id : SlotId} {height : Nat}

theorem with_heights (h : Laid l y) (heights : HeightSource) : Laid { l with heights } y :=
  ⟨h.present, h.counted, h.held, h.sorted, h.tall, h.levels, h.free, h.retired, h.sealed, h.orphans,
    h.count⟩

/-- Nodes that are as they were, behind the same head, are on the same levels in the same order. -/
theorem levels_congr (h : Laid l y) {l' : SkipList α} (hhead : l'.head = l.head)
    (hnode : ∀ e ∈ y.linked, l'.node? e.id = l.node? e.id) {v : Nat} (hv : v < maxHeight) :
    Visits (fun s => l'.next s v) none (l'.onLevel v y.linked) := by
  have hlevel : l'.onLevel v y.linked = l.onLevel v y.linked := by
    unfold onLevel
    congr 1
    refine List.filter_congr fun e he => ?_
    rw [heightOf_eq_core, core?_congr (hnode e he), ← heightOf_eq_core]
  rw [hlevel]
  refine (h.levels v hv).congr (congrArg (fun links => links.next v) hhead) fun x hx => ?_
  obtain ⟨e, he, rfl⟩ := mem_ids.mp ((onLevel_sublist l v y.linked).subset hx)
  exact next_congr (hnode e he) v

theorem fill_claimed (h : Laid l y) (hc : Claimed l y id c) (key : Addr) (payload : α)
    (hheight : 1 ≤ height ∧ height ≤ maxHeight) :
    Laid (c.fill id key payload height) (y.make ⟨id, key, payload⟩) := by
  have hnode : ∀ e ∈ y.entries, (c.fill id key payload height).node? e.id = l.node? e.id :=
    fun e he => hc.node?_fill_of_mem key payload height h
      (List.mem_append_left _ (List.mem_map_of_mem he))
  have hid := hc.core?_fill key payload height
  generalize hf : c.fill id key payload height = f at hnode hid ⊢
  have hparked : ∀ {head head' : Option SlotId} {es : List (Entry α)}, head' = head →
      Visits (chainOf head l.parkedAfter) none (ids es) → (∀ e ∈ es, e ∈ y.entries) →
      Visits (chainOf head' f.parkedAfter) none (ids es) := by
    rintro head _ es rfl hvis hes
    refine hvis.congr_next fun x hx => ?_
    obtain ⟨e, he, rfl⟩ := mem_ids.mp hx
    exact parkedAfter_congr (hnode e (hes e he))
  refine ⟨fun x hx => ?_, fun x => ?_, fun e he => ?_, h.sorted, fun e he => ?_, fun v hv => ?_, ?_,
    ?_, ?_, ?_, ?_⟩
  · subst hf
    have := hc.present x hx
    rw [node?_fill]
    split <;> simp [this]
  · subst hf
    exact hc.counted x
  · rcases List.mem_cons.mp (show e ∈ (⟨id, key, payload⟩ : Entry α) :: y.entries from he) with
      rfl | he
    · rw [entry_eq_core, hid]
      rfl
    · rw [entry_eq_core, core?_congr (hnode e he), ← entry_eq_core]
      exact h.held e he
  · rcases List.mem_cons.mp (show e ∈ (⟨id, key, payload⟩ : Entry α) :: (y.pending ++ y.linked)
      from he) with rfl | he
    · rw [heightOf_eq_core, hid]
      exact hheight
    · have hmem : e ∈ y.entries := by
        simp only [Layout.entries, List.mem_append] at he ⊢
        tauto
      rw [heightOf_eq_core, core?_congr (hnode e hmem), ← heightOf_eq_core]
      exact h.tall e he
  · exact h.levels_congr (by subst hf; exact hc.head) (fun e he => hnode e (linked_sub y e he)) hv
  · subst hf
    refine hc.free.congr_next fun x hx => next_congr ?_ 0
    exact hc.node?_fill_of_mem key payload height h
      (List.mem_append_right _ (List.mem_append_left _ hx))
  · exact hparked (by subst hf; exact hc.retired) h.retired fun e he => by
      simp [Layout.entries, show e ∈ y.retired from he]
  · exact hparked (by subst hf; exact hc.sealed) h.sealed fun e he => by
      simp [Layout.entries, show e ∈ y.sealed from he]
  · exact hparked (by subst hf; exact hc.orphans) h.orphans fun e he => by
      simp [Layout.entries, show e ∈ y.orphans from he]
  · subst hf
    exact hc.count.trans h.count

/-- Making a node leaves no trace, or makes one that waits, in the slot that became free last or,
if there is none, in one that was not handed out before. -/
theorem alloc_cases [Inhabited α] (h : Laid l y) (host : Host) (key : Addr) (payload : α) :
    (∃ host', l.alloc host key payload = (.error .allocation, l, host') ∧
      host'.books = host.books) ∨
    ∃ id l' host', l.alloc host key payload = (.ok id, l', host') ∧ host'.books = host.books ∧
      (y.free.head? = some id ∨ y.free = [] ∧ l.used < id.val) ∧ l.used ≤ l'.used ∧
      Laid l' (y.make ⟨id, key, payload⟩) ∧
      ∀ x : SlotId, x ≠ id → x.val ≤ l.used → l'.node? x = l.node? x := by
  have hdraw : ∀ (h : Host) n, (h.note (.heightDrawn n)).books = h.books :=
    fun h n => h.books_note_of_not_books (by rintro ⟨⟩)
  unfold alloc
  rcases h.claim_cases host with ⟨host', heq, hbooks⟩ | ⟨id, c, host', heq, hbooks, hc⟩
  · rw [heq]
    exact Or.inl ⟨host', rfl, hbooks⟩
  · rw [heq]
    have hlaid :=
      (h.fill_claimed hc key payload c.heights.draw_bounds).with_heights c.heights.draw.2
    exact Or.inr ⟨id, _, _, rfl, (hdraw ..).trans hbooks, hc.fresh, hc.used, hlaid,
      fun x hx hle => hc.node?_fill_of_ne key payload _ hx hle⟩

end Laid

end SkipList

end JitIndex
