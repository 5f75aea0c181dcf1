import JitIndex.Proofs.SkipList.Chain
import Mathlib.Data.List.Perm.Subperm

/-!
# The layout of a skip list

A skip list is sixteen chains of links, three chains of parked slots and one
of free slots, all in one pool and partly in the same fields. A `Layout` says
what all of that is for: which entries are linked, in order, which ones wait
to be linked, which ones are parked at which stage, and which slots are free.
`Laid l y` is the invariant that the list `l` is laid out as `y`.

- **slots** (`Laid.counted`): every slot handed out is in one place, once.
  Counting occurrences makes a move from one place to another a matter of
  arithmetic.
- **contents** (`Laid.held`): the slot of an entry holds that entry.
- **chains** (`Laid.levels` and the chains of free and parked slots): level `v`
  runs through the linked entries that are taller than `v`, in order.

The operations of a list are followed on its layout, where they are plain
list functions; what they do to a node's fields is covered by the frame
lemmas at the top.
-/

namespace JitIndex

namespace SkipList

universe u

variable {α : Type u}

/-! ## What a change to one field leaves alone -/

/-- What a node is about: its key, its payload and its height. -/
def core? (l : SkipList α) (id : SlotId) : Option (Addr × α × Nat) :=
  (l.node? id).map fun n => (n.key, n.payload, n.height)

def heightOf (l : SkipList α) (id : SlotId) : Nat := ((l.node? id).map Node.height).getD 0

/-- A site whose links can be changed. -/
def Stands (l : SkipList α) (site : Site) : Prop := ∀ id, site = some id → (l.node? id).isSome

theorem entry_eq_core (l : SkipList α) (id : SlotId) :
    l.entry? id = (l.core? id).map fun c => ⟨id, c.1, c.2.1⟩ := by
  simp [ entry?, core?, Function.comp_def]

theorem heightOf_eq_core (l : SkipList α) (id : SlotId) :
    l.heightOf id = ((l.core? id).map fun c => c.2.2).getD 0 := by
  simp [heightOf, core?, Function.comp_def]

theorem core?_isSome (l : SkipList α) (id : SlotId) :
    (l.core? id).isSome = (l.node? id).isSome := by
  simp [core?]

section

variable {l l' : SkipList α} {id : SlotId} (h : l'.node? id = l.node? id)
include h

theorem core?_congr : l'.core? id = l.core? id := by
  rw [core?, core?, h]

theorem parkedAfter_congr : l'.parkedAfter id = l.parkedAfter id := by
  rw [parkedAfter, parkedAfter, h]

theorem next_congr (level : Nat) : l'.next (some id) level = l.next (some id) level := by
  rw [next, next, linksAt, linksAt, h]

end

theorem Links.next_setNext (links : Links) {level : Nat} (hlevel : level < maxHeight)
    (target : Option SlotId) (other : Nat) :
    (links.setNext level target).next other =
      if other = level then target else links.next other := by
  simp only [Links.next, Links.setNext, Vector.getElem?_setIfInBounds]
  by_cases h : level = other
  · subst h
    simp [hlevel]
  · simp [h, Ne.symm h]

theorem node?_setNext (l : SkipList α) (site : Site) (level : Nat) (target : Option SlotId)
    (id : SlotId) :
    (l.setNext site level target).node? id =
      if site = some id then
        (l.node? id).map fun n => { n with links := n.links.setNext level target }
      else l.node? id := by
  cases site with
  | none => rfl
  | some other =>
      show (l.nodes.modify other _).get? id = _
      rw [Pool.get?_modify]
      simp only [Option.some.injEq]
      rfl

theorem core?_setNext (l : SkipList α) (site : Site) (level : Nat) (target : Option SlotId)
    (id : SlotId) : (l.setNext site level target).core? id = l.core? id := by
  unfold core?
  rw [node?_setNext]
  split
  · simp [Function.comp_def]
  · rfl

theorem parkedAfter_setNext (l : SkipList α) (site : Site) (level : Nat)
    (target : Option SlotId) (id : SlotId) :
    (l.setNext site level target).parkedAfter id = l.parkedAfter id := by
  unfold parkedAfter
  rw [node?_setNext]
  split
  · cases l.node? id <;> rfl
  · rfl

/-- A link is changed at its site and on its level, and nowhere else. -/
theorem next_setNext {l : SkipList α} {site : Site} (hsite : l.Stands site) {level : Nat}
    (hlevel : level < maxHeight) (target : Option SlotId) (other : Site) (otherLevel : Nat) :
    (l.setNext site level target).next other otherLevel =
      if other = site ∧ otherLevel = level then target else l.next other otherLevel := by
  cases site with
  | none =>
      cases other with
      | none =>
          show (l.head.setNext level target).next otherLevel = _
          rw [Links.next_setNext _ hlevel]
          simp [next, linksAt]
      | some id => rfl
  | some id =>
      cases other with
      | none => rfl
      | some x =>
          show (((l.setNext (some id) level target).node? x).map Node.links
            |>.getD .none).next _ = _
          rw [node?_setNext]
          by_cases hx : id = x
          · subst hx
            obtain ⟨n, hn⟩ := Option.isSome_iff_exists.mp (hsite id rfl)
            simp only [hn, if_true, Option.map_some, Option.getD_some, true_and]
            rw [Links.next_setNext _ hlevel]
            simp [next, linksAt, hn]
          · simp [hx, Ne.symm hx, next, linksAt]

theorem node?_setParked (l : SkipList α) (id : SlotId) (target : Option SlotId) (other : SlotId) :
    (l.setParked id target).node? other =
      if id = other then (l.node? other).map fun n => { n with parked := target }
      else l.node? other :=
  Pool.get?_modify ..

theorem core?_setParked (l : SkipList α) (id : SlotId) (target : Option SlotId) (other : SlotId) :
    (l.setParked id target).core? other = l.core? other := by
  unfold core?
  rw [node?_setParked]
  split
  · simp [Function.comp_def]
  · rfl

theorem next_setParked (l : SkipList α) (id : SlotId) (target : Option SlotId) (site : Site)
    (level : Nat) : (l.setParked id target).next site level = l.next site level := by
  cases site with
  | none => rfl
  | some x =>
      show (((l.setParked id target).node? x).map Node.links |>.getD .none).next level = _
      rw [node?_setParked]
      split
      · simp [next, linksAt, Function.comp_def]
      · rfl

theorem parkedAfter_setParked {l : SkipList α} {id : SlotId} (hid : (l.node? id).isSome)
    (target : Option SlotId) (other : SlotId) :
    (l.setParked id target).parkedAfter other =
      if other = id then target else l.parkedAfter other := by
  unfold parkedAfter
  rw [node?_setParked]
  by_cases h : id = other
  · subst h
    obtain ⟨n, hn⟩ := Option.isSome_iff_exists.mp hid
    simp [hn]
  · simp [h, Ne.symm h]

/-- `l'` differs from `l` at most in where links lead. -/
structure Relinked (l l' : SkipList α) : Prop where
  core : ∀ id, l'.core? id = l.core? id
  parkedAfter : ∀ id, l'.parkedAfter id = l.parkedAfter id
  used : l'.used = l.used
  free : l'.free = l.free
  retired : l'.retired = l.retired
  sealed : l'.sealed = l.sealed
  orphans : l'.orphans = l.orphans
  count : l'.count = l.count

theorem Relinked.refl (l : SkipList α) : Relinked l l :=
  ⟨fun _ => rfl, fun _ => rfl, rfl, rfl, rfl, rfl, rfl, rfl⟩

theorem Relinked.trans {l l' l'' : SkipList α} (h : Relinked l l') (h' : Relinked l' l'') :
    Relinked l l'' :=
  ⟨fun id => (h'.core id).trans (h.core id),
   fun id => (h'.parkedAfter id).trans (h.parkedAfter id), h'.used.trans h.used,
   h'.free.trans h.free, h'.retired.trans h.retired, h'.sealed.trans h.sealed,
   h'.orphans.trans h.orphans, h'.count.trans h.count⟩

theorem relinked_setNext (l : SkipList α) (site : Site) (level : Nat) (target : Option SlotId) :
    Relinked l (l.setNext site level target) := by
  refine ⟨l.core?_setNext site level target, l.parkedAfter_setNext site level target, ?_, ?_, ?_,
    ?_, ?_, ?_⟩ <;> cases site <;> rfl

theorem Relinked.stands {l l' : SkipList α} (h : Relinked l l') {site : Site}
    (hs : l.Stands site) : l'.Stands site := by
  intro id hid
  rw [← core?_isSome, h.core, core?_isSome]
  exact hs id hid

/-! ## Layouts -/

def ids (es : List (Entry α)) : List SlotId := es.map (·.id)

theorem ids_append (es fs : List (Entry α)) : ids (es ++ fs) = ids es ++ ids fs :=
  List.map_append ..

theorem mem_ids {es : List (Entry α)} {id : SlotId} : id ∈ ids es ↔ ∃ e ∈ es, e.id = id :=
  List.mem_map

/-- What the slots of a list are used for. -/
structure Layout (α : Type u) where
  /-- Made, and not linked yet. -/
  pending : List (Entry α) := []
  /-- Linked, in the order of their keys. -/
  linked : List (Entry α) := []
  /-- Parked, the last one first, as on the chains below. -/
  retired : List (Entry α) := []
  sealed : List (Entry α) := []
  orphans : List (Entry α) := []
  free : List SlotId := []
  /-- Let go of by the list. -/
  gone : List SlotId := []

namespace Layout

/-- The entries that are somewhere. -/
def entries (y : Layout α) : List (Entry α) :=
  y.pending ++ (y.linked ++ (y.retired ++ (y.sealed ++ y.orphans)))

/-- Every slot, once for each place it is in. -/
def slots (y : Layout α) : List SlotId := ids y.entries ++ (y.free ++ y.gone)

end Layout

/-- The slots of the entries that are taller than a level, in order. -/
def onLevel (l : SkipList α) (level : Nat) (es : List (Entry α)) : List SlotId :=
  ids (es.filter fun e => level < l.heightOf e.id)

theorem onLevel_append (l : SkipList α) (level : Nat) (es fs : List (Entry α)) :
    l.onLevel level (es ++ fs) = l.onLevel level es ++ l.onLevel level fs := by
  simp [onLevel, ids]

theorem onLevel_cons (l : SkipList α) (level : Nat) (e : Entry α) (es : List (Entry α)) :
    l.onLevel level (e :: es) =
      if level < l.heightOf e.id then e.id :: l.onLevel level es else l.onLevel level es := by
  unfold onLevel
  rw [List.filter_cons]
  split <;> simp_all [ids]

theorem onLevel_sublist (l : SkipList α) (level : Nat) (es : List (Entry α)) :
    (l.onLevel level es).Sublist (ids es) :=
  List.filter_sublist.map _

/-- The slots that may be used for new nodes. -/
def freeSlots (l : SkipList α) : List SlotId :=
  slotsFrom (fun id => l.next (some id) 0) l.used l.free

/-- The list is laid out as the layout says. -/
structure Laid (l : SkipList α) (y : Layout α) : Prop where
  present : ∀ id : SlotId, id.val ≤ l.used → (l.node? id).isSome
  counted : ∀ id : SlotId, y.slots.count id = if id.val ≤ l.used then 1 else 0
  held : ∀ e ∈ y.entries, l.entry? e.id = some e
  sorted : y.linked.Pairwise fun a b => a.key < b.key
  tall : ∀ e ∈ y.pending ++ y.linked, 1 ≤ l.heightOf e.id ∧ l.heightOf e.id ≤ maxHeight
  levels : ∀ level < maxHeight, Visits (fun s => l.next s level) none (l.onLevel level y.linked)
  free : Visits (chainOf l.free fun id => l.next (some id) 0) none y.free
  retired : Visits (chainOf l.retired l.parkedAfter) none (ids y.retired)
  sealed : Visits (chainOf l.sealed l.parkedAfter) none (ids y.sealed)
  orphans : Visits (chainOf l.orphans l.parkedAfter) none (ids y.orphans)
  count : l.count = y.linked.length

namespace Laid

variable {l : SkipList α} {y : Layout α}

/-! ## What a layout says about slots -/

theorem nodup (h : Laid l y) : y.slots.Nodup := by
  rw [List.nodup_iff_count_le_one]
  intro id
  rw [h.counted]
  split <;> decide

theorem mem_slots (h : Laid l y) {id : SlotId} : id ∈ y.slots ↔ id.val ≤ l.used := by
  rw [← List.count_pos_iff, h.counted]
  split <;> simp_all

theorem nodup_ids (h : Laid l y) : (ids y.entries).Nodup := (List.nodup_append.mp h.nodup).1

theorem mem_used (h : Laid l y) {e : Entry α} (he : e ∈ y.entries) : e.id.val ≤ l.used :=
  h.mem_slots.mp (List.mem_append_left _ (List.mem_map_of_mem he))

theorem node?_isSome (h : Laid l y) {e : Entry α} (he : e ∈ y.entries) :
    (l.node? e.id).isSome := h.present _ (h.mem_used he)

theorem ne_of_free (h : Laid l y) {id : SlotId} (hid : id ∈ y.free) {e : Entry α}
    (he : e ∈ y.entries) : id ≠ e.id := fun heq =>
  (List.nodup_append.mp h.nodup).2.2 e.id (List.mem_map_of_mem he) id
    (List.mem_append_left _ hid) heq.symm

theorem linked_sub (y : Layout α) : ∀ e ∈ y.linked, e ∈ y.entries := fun e he => by
  simp [Layout.entries, he]

/-- No place holds more slots than were handed out. -/
theorem length_le_used (h : Laid l y) {places : List SlotId} (hsub : places.Sublist y.slots) :
    places.length ≤ l.used := by
  have hnd : (places.map SlotId.val).Nodup := by
    exact (hsub.nodup h.nodup).map_on fun _ _ _ _ => SlotId.eq_of_val
  have hle : (places.map SlotId.val).length ≤ (List.range' 1 l.used).length := by
    refine (hnd.subperm fun n hn => ?_).length_le
    obtain ⟨id, hid, rfl⟩ := List.mem_map.mp hn
    have := h.mem_slots.mp (hsub.subset hid)
    have := id.pos
    exact List.mem_range'_1.mpr ⟨by omega, by omega⟩
  simpa using hle

theorem freeSlots_eq (h : Laid l y) : l.freeSlots = y.free := by
  refine h.free.slotsFrom_eq (h.length_le_used ?_)
  exact (List.sublist_append_left ..).trans (List.sublist_append_right ..)

end Laid

theorem ofSeed_laid (seed : UInt64) : Laid (ofSeed seed : SkipList α) {} where
  present id hid := absurd id.pos (Nat.not_lt_of_le hid)
  counted id := by
    have hpos := id.pos
    show 0 = if id.val ≤ 0 then 1 else 0
    rw [if_neg (by omega)]
  held _ he := absurd he List.not_mem_nil
  sorted := List.Pairwise.nil
  tall _ he := absurd he List.not_mem_nil
  levels level hlevel := by
    show Links.none.next level = none
    simp [Links.next, Links.none, hlevel]
  free := visits_chainOf_none
  retired := visits_chainOf_none
  sealed := visits_chainOf_none
  orphans := visits_chainOf_none
  count := rfl

end SkipList

end JitIndex
