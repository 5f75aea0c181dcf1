import JitIndex.Slot.Session
import Mathlib.Data.List.ReduceOption

/-!
# What a pool keeps

A pool is only ever made larger. A slot comes into being with its segment, and
from then on it holds what was written to it last, or what it was made with if
nothing was. Who asked for the segment, and what happens to any other slot, in
the same segment or not, makes no difference: what a slot holds can be told
from the deeds that name it and from the one that made its segment
(`Pool.held`).

The memory of a pool is that of its segments. The host was asked for each of
them once, and gets each of them back once, when the pool goes away
(`Pool.any_uses_kept`).
-/

namespace JitIndex

universe u

/-! ## Memory in the journal -/

namespace Event

def granted? : Event → Option Nat
  | granted slots => some slots
  | _ => none

def freed? : Event → Option Nat
  | freed slots => some slots
  | _ => none

end Event

namespace Host

/-- The memory that was granted, request by request. -/
def granted (h : Host) : List Nat := h.journal.toList.filterMap Event.granted?

/-- The memory that was given back. -/
def freed (h : Host) : List Nat := h.journal.toList.filterMap Event.freed?

theorem journal_notes (h : Host) (es : List Event) :
    (h.notes es).journal.toList = h.journal.toList ++ es := by
  induction es generalizing h with
  | nil => exact (List.append_nil _).symm
  | cons e es ih =>
      show ((h.note e).notes es).journal.toList = _
      rw [ih, note, Array.toList_push, List.append_assoc, List.singleton_append]

theorem granted_notes (h : Host) (es : List Event) :
    (h.notes es).granted = h.granted ++ es.filterMap Event.granted? := by
  rw [granted, journal_notes, List.filterMap_append, granted]

theorem freed_notes (h : Host) (es : List Event) :
    (h.notes es).freed = h.freed ++ es.filterMap Event.freed? := by
  rw [freed, journal_notes, List.filterMap_append, freed]

theorem granted_note (h : Host) (e : Event) :
    (h.note e).granted = h.granted ++ [e].filterMap Event.granted? := h.granted_notes [e]

theorem freed_note (h : Host) (e : Event) :
    (h.note e).freed = h.freed ++ [e].filterMap Event.freed? := h.freed_notes [e]

/-- A request is noted, whatever comes of it, and takes nothing back. -/
theorem request_eq (h : Host) (slots : Nat) :
    (h.request slots).2.allocator = h.allocator ∧ (h.request slots).2.freed = h.freed ∧
      (h.request slots).2.granted =
        h.granted ++ if h.allocator.refuses h.requests slots then [] else [slots] := by
  unfold request
  dsimp only
  rw [freed_note, granted_note]
  cases h.allocator.refuses h.requests slots <;> exact ⟨rfl, List.append_nil _, rfl⟩

end Host

namespace Pool

variable {α : Type u} {p : Pool α} {host : Host} {id other : SlotId}

/-! ## Making a slot -/

theorem segmentOf?_congr (p : Pool α) (h : id.segment = other.segment) :
    p.segmentOf? id = p.segmentOf? other := by
  simp only [segmentOf?, h]

/-- Slots of one segment come into being together. -/
theorem isSome_get?_congr (p : Pool α) (h : id.segment = other.segment) :
    (p.get? id).isSome = (p.get? other).isSome := by
  rw [get?_isSome, get?_isSome, p.segmentOf?_congr h]

/-- The segment of `id` is in a pool that is else as it was. -/
structure Added (p : Pool α) (id : SlotId) (init : Nat → α) (p' : Pool α) : Prop where
  fresh : p.segmentOf? id = none
  segments : p'.segments = p.segments.set id.segment
    (some (Array.ofFn fun i : Fin (segmentSize id.segment) => init i)) id.segment_lt

/-- A slot that is there costs nothing. For any other the host is asked once, for as many slots as
its segment has, and if it refuses the pool is as it was. -/
theorem ensure_eq (p : Pool α) (host : Host) (id : SlotId) (init : Nat → α) :
    ((p.get? id).isSome = true ∧ p.ensure host id init = (.ok 0, p, host)) ∨
    ((p.get? id).isSome = false ∧
      host.allocator.refuses host.requests (segmentSize id.segment) = true ∧
      p.ensure host id init = (.error .allocation, p, (host.request (segmentSize id.segment)).2)) ∨
    ((p.get? id).isSome = false ∧
      host.allocator.refuses host.requests (segmentSize id.segment) = false ∧
      ∃ p', p.Added id init p' ∧ p.ensure host id init = (.ok (segmentSize id.segment), p',
        (host.request (segmentSize id.segment)).2.note
          (.segmentAdded id.segment (segmentSize id.segment)))) := by
  rw [get?_isSome]
  unfold ensure
  split
  · rename_i segment hthere
    exact .inl ⟨by rw [hthere]; rfl, rfl⟩
  · rename_i hfresh
    rcases hrequest : host.request (segmentSize id.segment) with ⟨granted, host'⟩
    have hgranted : (!host.allocator.refuses host.requests (segmentSize id.segment)) = granted :=
      congrArg Prod.fst hrequest
    rw [hfresh]
    dsimp only
    rw [hrequest]
    cases granted with
    | false => exact .inr (.inl ⟨rfl, by simpa using hgranted, rfl⟩)
    | true => exact .inr (.inr ⟨rfl, by simpa using hgranted, _, ⟨hfresh, rfl⟩, rfl⟩)

/-- A slot comes into being exactly if it is there already or its memory is granted. -/
theorem ensure_ok_iff (p : Pool α) (host : Host) (id : SlotId) (init : Nat → α) :
    (∃ n, (p.ensure host id init).1 = .ok n) ↔
      (p.get? id).isSome ∨
        host.allocator.refuses host.requests (segmentSize id.segment) = false := by
  rcases p.ensure_eq host id init with ⟨hthere, hrun⟩ | ⟨hnone, hrefuses, hrun⟩ |
    ⟨-, hgrants, _, -, hrun⟩
  · rw [hrun, hthere]
    exact ⟨fun _ => .inl rfl, fun _ => ⟨_, rfl⟩⟩
  · rw [hrun, hnone, hrefuses]
    exact ⟨nofun, nofun⟩
  · rw [hrun, hgrants]
    exact ⟨fun _ => .inr rfl, fun _ => ⟨_, rfl⟩⟩

/-- A refusal leaves the pool as it was, and the next attempt is up to the host again. -/
theorem ensure_refused (p : Pool α) {host host' : Host} {p' : Pool α} (id : SlotId) (init : Nat → α)
    {f : Failure} (hrun : p.ensure host id init = (.error f, p', host')) :
    p' = p ∧ host'.allocator = host.allocator ∧ (p.get? id).isSome = false := by
  rcases p.ensure_eq host id init with ⟨-, heq⟩ | ⟨hnone, -, heq⟩ | ⟨-, -, _, -, heq⟩ <;>
    rw [heq] at hrun
  · cases hrun
  · cases hrun
    exact ⟨rfl, (host.request_eq _).1, hnone⟩
  · cases hrun

/-- The slots of the new segment hold what they were made with. -/
theorem Added.get?_eq {init : Nat → α} {p' : Pool α} (h : p.Added id init p') (other : SlotId) :
    p'.get? other =
      if id.segment = other.segment then some (init other.offset) else p.get? other := by
  have hsegment : p'.segmentOf? other = if id.segment = other.segment then
      some (Array.ofFn fun i : Fin (segmentSize id.segment) => init i) else p.segmentOf? other := by
    unfold segmentOf?
    dsimp only
    simp only [h.segments, Vector.getElem_set]
  unfold get?
  rw [hsegment]
  by_cases hsame : id.segment = other.segment
  · have hin : other.offset < segmentSize id.segment := hsame ▸ other.offset_lt
    rw [if_pos hsame, if_pos hsame]
    dsimp only
    rw [Array.getElem?_eq_getElem (by rwa [Array.size_ofFn]), Array.getElem_ofFn]
  · simp only [if_neg hsame]

/-! ## Memory in use -/

/-- The sizes of the segments that are there, in order. -/
def sizes (p : Pool α) : List Nat := (p.segments.toList.map (Option.map Array.size)).reduceOption

/-- One more thing among optional things. -/
theorem reduceOption_set_perm {xs : List (Option Nat)} {i x : Nat} (h : xs[i]? = some none) :
    (xs.set i (some x)).reduceOption.Perm (x :: xs.reduceOption) := by
  obtain ⟨hi, hget⟩ := List.getElem?_eq_some_iff.mp h
  have hsplit : xs.reduceOption =
      (xs.take i).reduceOption ++ (xs.drop (i + 1)).reduceOption := by
    conv_lhs => rw [← List.take_append_drop i xs, List.drop_eq_getElem_cons hi, hget]
    rw [List.reduceOption_append, List.reduceOption_cons_of_none]
  rw [List.set_eq_take_append_cons_drop, if_pos hi, List.reduceOption_append,
    List.reduceOption_cons_of_some, hsplit]
  exact List.perm_middle

theorem getElem?_map_size (p : Pool α) (id : SlotId) :
    (p.segments.toList.map (Option.map Array.size))[id.segment]? =
      some ((p.segmentOf? id).map Array.size) := by
  rw [List.getElem?_map, Vector.getElem?_toList, Vector.getElem?_eq_getElem id.segment_lt]
  rfl

theorem Added.sizes_perm {init : Nat → α} {p' : Pool α} (h : p.Added id init p') :
    p'.sizes.Perm (segmentSize id.segment :: p.sizes) := by
  have hfresh := p.getElem?_map_size id
  rw [h.fresh] at hfresh
  unfold sizes
  rw [h.segments, Vector.toList_set, List.map_set, Option.map_some, Array.size_ofFn]
  exact reduceOption_set_perm hfresh

/-- To write to a slot takes no memory. -/
theorem sizes_modify (p : Pool α) (id : SlotId) (f : α → α) : (p.modify id f).sizes = p.sizes := by
  unfold modify
  split
  · rfl
  · rename_i segment hthere
    obtain ⟨hin, hsize⟩ := List.getElem?_eq_some_iff.mp (p.getElem?_map_size id)
    have hsame := List.set_getElem_self hin
    rw [hsize, hthere] at hsame
    unfold sizes
    dsimp only
    rw [Vector.set_set, Vector.toList_set, List.map_set, Option.map_some, Array.size_modify]
    exact congrArg List.reduceOption hsame

/-- When a pool goes away it gives its segments back one by one. -/
theorem free_eq (p : Pool α) (host : Host) : p.free host = host.notes (p.sizes.map .freed) := by
  unfold free sizes
  generalize p.segments.toList = segments
  induction segments generalizing host with
  | nil => rfl
  | cons segment segments ih =>
      rw [List.foldl_cons, ih, List.map_cons]
      cases segment with
      | none => rw [Option.map_none, List.reduceOption_cons_of_none]
      | some slots => rw [Option.map_some, List.reduceOption_cons_of_some]; rfl

theorem freed_free (p : Pool α) (host : Host) : (p.free host).freed = host.freed ++ p.sizes := by
  have hall : Event.freed? ∘ Event.freed = some := rfl
  rw [free_eq, Host.freed_notes, List.filterMap_map, hall, List.filterMap_some]

theorem granted_free (p : Pool α) (host : Host) : (p.free host).granted = host.granted := by
  have hnone : Event.granted? ∘ Event.freed = fun _ => none := rfl
  rw [free_eq, Host.granted_notes, List.filterMap_map, hnone, List.filterMap_none,
    List.append_nil]

/-! ## Uses -/

/-- What is asked of a pool. -/
inductive Use (α : Type u) where
  /-- Make sure that a slot exists. Slots that come into being for it hold `init` of their
  offsets. -/
  | ensure (id : SlotId) (init : Nat → α)
  | get (id : SlotId)
  | set (id : SlotId) (value : α)

inductive Outcome (α : Type u) where
  /-- The slot exists; so many slots came into being for it. -/
  | ensured (slots : Nat)
  | refused
  /-- The value in a slot, before a write if it was one. -/
  | value (v : Option α)

/-- Something that was done to a pool, and what came of it. -/
structure Deed (α : Type u) where
  use : Use α
  outcome : Outcome α

/-- A pool and its host, and all that was done to the pool, the oldest deed first. -/
structure Tenure (α : Type u) where
  pool : Pool α := .empty
  host : Host
  deeds : List (Deed α) := []

namespace Tenure

def start (allocator : Allocator) : Tenure α := { host := { allocator } }

/-- What a use makes of a pool and its host. -/
def perform (t : Tenure α) : Use α → Outcome α × Pool α × Host
  | .ensure id init =>
    match t.pool.ensure t.host id init with
    | (.ok slots, pool, host) => (.ensured slots, pool, host)
    | (.error _, pool, host) => (.refused, pool, host)
  | .get id => (.value (t.pool.get? id), t.pool, t.host)
  | .set id v => (.value (t.pool.get? id), t.pool.modify id fun _ => v, t.host)

def use (t : Tenure α) (u : Use α) : Tenure α :=
  let (outcome, pool, host) := t.perform u
  ⟨pool, host, t.deeds ++ [⟨u, outcome⟩]⟩

def run (t : Tenure α) (us : List (Use α)) : Tenure α := us.foldl use t

end Tenure

/-! ## What a slot should hold -/

/-- What the slots of a segment are made with, if the deed made sure of one of them. -/
def Deed.makes? (segment : Nat) : Deed α → Option (Nat → α)
  | ⟨.ensure id init, .ensured _⟩ => if id.segment = segment then some init else none
  | _ => none

/-- What the deed wrote to a slot. -/
def Deed.writes? (id : SlotId) : Deed α → Option α
  | ⟨.set other v, _⟩ => if other = id then some v else none
  | _ => none

/-- What a slot should hold after some deeds: there is nothing until somebody makes sure of a slot
in its segment, and from then on what was written to it last, or what it was made with. -/
def held (id : SlotId) : List (Deed α) → Option α
  | [] => none
  | d :: later =>
    match d.makes? id.segment with
    | some init => some ((later.filterMap (Deed.writes? id)).getLast?.getD (init id.offset))
    | none => held id later

/-- One more deed makes a slot that was not there, or writes to one that was. -/
theorem held_concat (id : SlotId) (ds : List (Deed α)) (d : Deed α) :
    held id (ds ++ [d]) = match held id ds with
      | none => (d.makes? id.segment).map (· id.offset)
      | some v => some ((d.writes? id).getD v) := by
  induction ds with
  | nil =>
      rw [List.nil_append, held, held]
      cases d.makes? id.segment <;> rfl
  | cons e ds ih =>
      rw [List.cons_append, held, held]
      cases e.makes? id.segment with
      | none => exact ih
      | some init =>
          dsimp only
          rw [List.filterMap_append, List.getLast?_append]
          cases hd : d.writes? id <;> simp [hd]

/-- A deed that neither makes a slot nor writes to it makes no difference to it. -/
theorem held_concat_idle {ds : List (Deed α)} {d : Deed α} (hmakes : d.makes? id.segment = none)
    (hwrites : d.writes? id = none) : held id (ds ++ [d]) = held id ds := by
  rw [held_concat, hmakes, hwrites]
  cases held id ds <;> rfl

theorem Deed.isSome_makes?_iff (d : Deed α) (segment : Nat) :
    (d.makes? segment).isSome = true ↔ ∃ id init slots,
      ⟨.ensure id init, .ensured slots⟩ = d ∧ id.segment = segment := by
  obtain ⟨⟨id, init⟩ | id | ⟨id, v⟩, slots | _ | v⟩ := d <;> simp [makes?]

/-- A slot should be there exactly if somebody made sure of a slot in its segment. -/
theorem isSome_held_iff (id : SlotId) (ds : List (Deed α)) :
    (held id ds).isSome = true ↔ ∃ other init slots,
      ⟨.ensure other init, .ensured slots⟩ ∈ ds ∧ other.segment = id.segment := by
  have hmade : (held id ds).isSome = true ↔ ∃ d ∈ ds, (d.makes? id.segment).isSome = true := by
    induction ds with
    | nil => simp [held]
    | cons d ds ih =>
        rw [held, List.exists_mem_cons_iff]
        cases d.makes? id.segment with
        | none => simpa using ih
        | some init => simp
  rw [hmade]
  constructor
  · rintro ⟨d, hd, hmakes⟩
    obtain ⟨other, init, slots, rfl, hsegment⟩ := (d.isSome_makes?_iff _).mp hmakes
    exact ⟨other, init, slots, hd, hsegment⟩
  · rintro ⟨other, init, slots, hd, hsegment⟩
    exact ⟨_, hd, (Deed.isSome_makes?_iff _ _).mpr ⟨other, init, slots, rfl, hsegment⟩⟩

/-! ## What is kept -/

namespace Tenure

variable {t : Tenure α} {allocator : Allocator}

/-- Every slot holds what it should, and the memory that was granted is that of the segments. -/
structure Kept (allocator : Allocator) (t : Tenure α) : Prop where
  allocator : t.host.allocator = allocator
  held : ∀ id, t.pool.get? id = held id t.deeds
  granted : t.host.granted.Perm t.pool.sizes
  freed : t.host.freed = []

theorem Kept.start (allocator : Allocator) : Kept allocator (start allocator : Tenure α) where
  allocator := rfl
  held id := by
    show (Pool.empty : Pool α).get? id = none
    simp [get?, segmentOf?, empty]
  granted := by
    show List.Perm [] (Pool.empty : Pool α).sizes
    simp [sizes, empty, List.reduceOption]
  freed := rfl

/-- To make sure of a slot that is there makes no difference to any slot. -/
theorem Kept.ensure_there (h : Kept allocator t) {id : SlotId} (init : Nat → α) (slots : Nat)
    (hthere : (t.pool.get? id).isSome = true) (other : SlotId) :
    t.pool.get? other = Pool.held other (t.deeds ++ [⟨.ensure id init, .ensured slots⟩]) := by
  rw [held_concat, ← h.held]
  cases hother : t.pool.get? other with
  | some v => rfl
  | none =>
      have hapart : id.segment ≠ other.segment := fun hsame => by
        rw [t.pool.isSome_get?_congr hsame, hother] at hthere
        cases hthere
      simp [Deed.makes?, hapart]

theorem Kept.ensure_added (h : Kept allocator t) {id : SlotId} {init : Nat → α} {p : Pool α}
    (hadded : t.pool.Added id init p) (slots : Nat) (other : SlotId) :
    p.get? other = Pool.held other (t.deeds ++ [⟨.ensure id init, .ensured slots⟩]) := by
  rw [hadded.get?_eq, held_concat, ← h.held]
  by_cases hsame : id.segment = other.segment
  · have hnone : t.pool.get? other = none := by
      rw [← Option.not_isSome_iff_eq_none, get?_isSome, ← t.pool.segmentOf?_congr hsame,
        hadded.fresh]
      exact Bool.false_ne_true
    rw [if_pos hsame, hnone]
    simp [Deed.makes?, hsame]
  · rw [if_neg hsame]
    cases t.pool.get? other <;> simp [Deed.makes?, Deed.writes?, hsame]

theorem Kept.written (h : Kept allocator t) (id : SlotId) (v : α) (o : Outcome α) (other : SlotId) :
    (t.pool.modify id fun _ => v).get? other =
      Pool.held other (t.deeds ++ [⟨.set id v, o⟩]) := by
  rw [get?_modify, held_concat, ← h.held]
  cases t.pool.get? other with
  | none => simp [Deed.makes?]
  | some w => by_cases hsame : id = other <;> simp [Deed.writes?, hsame]

theorem Kept.use (h : Kept allocator t) (u : Use α) : Kept allocator (t.use u) := by
  cases u with
  | ensure id init =>
      obtain ⟨hallocator, hfreed, hgranted⟩ := t.host.request_eq (segmentSize id.segment)
      unfold Tenure.use perform
      dsimp only
      rcases t.pool.ensure_eq t.host id init with ⟨hthere, hrun⟩ | ⟨-, hrefuses, hrun⟩ |
        ⟨-, hrefuses, p, hadded, hrun⟩ <;> rw [hrun]
      · exact ⟨h.allocator, h.ensure_there init 0 hthere, h.granted, h.freed⟩
      · rw [if_pos hrefuses, List.append_nil] at hgranted
        refine ⟨hallocator.trans h.allocator, fun other => ?_, ?_, hfreed.trans h.freed⟩
        · rw [held_concat_idle rfl rfl]
          exact h.held other
        · rw [hgranted]
          exact h.granted
      · rw [if_neg (by rw [hrefuses]; exact Bool.false_ne_true)] at hgranted
        refine ⟨hallocator.trans h.allocator, h.ensure_added hadded _, ?_, ?_⟩
        · rw [Host.granted_note, hgranted]
          show (_ ++ [_] ++ []).Perm p.sizes
          rw [List.append_nil]
          exact (List.perm_append_singleton _ _).trans
            ((h.granted.cons _).trans hadded.sizes_perm.symm)
        · rw [Host.freed_note, hfreed, h.freed]
          rfl
  | get id =>
      refine ⟨h.allocator, fun other => ?_, h.granted, h.freed⟩
      exact (h.held other).trans (held_concat_idle rfl rfl).symm
  | set id v =>
      refine ⟨h.allocator, h.written id v _, ?_, h.freed⟩
      show t.host.granted.Perm (t.pool.modify id fun _ => v).sizes
      rw [sizes_modify]
      exact h.granted

theorem Kept.run (h : Kept allocator t) (us : List (Use α)) : Kept allocator (t.run us) := by
  induction us generalizing t with
  | nil => exact h
  | cons u us ih => exact ih (h.use u)

end Tenure

/-- Whatever is asked of a pool, and whatever memory is refused, a slot exists exactly if somebody
made sure of a slot in its segment, and it holds what it should. To make sure of a slot that exists
does nothing and asks for nothing. A refusal leaves the pool as it was, and the next attempt is as
good as the host lets it be. The memory that was granted is all there, and all of it is given back
in the end, segment by segment. -/
theorem any_uses_kept (allocator : Allocator) (us : List (Use α)) :
    let t := (Tenure.start allocator).run us
    (∀ id, (t.pool.get? id).isSome = true ↔ ∃ other init slots,
      ⟨.ensure other init, .ensured slots⟩ ∈ t.deeds ∧ other.segment = id.segment) ∧
    (∀ id, t.pool.get? id = held id t.deeds) ∧
    (∀ id init, (t.pool.get? id).isSome = true →
      t.pool.ensure t.host id init = (.ok 0, t.pool, t.host)) ∧
    (∀ id init f p host, t.pool.ensure t.host id init = (.error f, p, host) →
      p = t.pool ∧ ∀ retry, (∃ slots, (p.ensure host id retry).1 = .ok slots) ↔
        allocator.refuses host.requests (segmentSize id.segment) = false) ∧
    t.host.freed = [] ∧ (t.pool.free t.host).freed.Perm (t.pool.free t.host).granted := by
  intro t
  have hkept : Tenure.Kept allocator t := (Tenure.Kept.start allocator).run us
  refine ⟨?_, hkept.held, ?_, ?_, hkept.freed, ?_⟩
  · intro id
    rw [hkept.held, isSome_held_iff]
  · intro id init hthere
    rcases t.pool.ensure_eq t.host id init with ⟨-, hensure⟩ | ⟨hnone, -⟩ | ⟨hnone, -⟩
    · exact hensure
    · exact absurd (hnone.symm.trans hthere) Bool.false_ne_true
    · exact absurd (hnone.symm.trans hthere) Bool.false_ne_true
  · intro id init f p host hrun
    obtain ⟨rfl, hallocator, hnone⟩ := t.pool.ensure_refused id init hrun
    refine ⟨rfl, fun retry => ?_⟩
    rw [← hkept.allocator, ← hallocator]
    rw [ensure_ok_iff, hnone]
    exact or_iff_right Bool.false_ne_true
  · rw [freed_free, granted_free, hkept.freed, List.nil_append]
    exact hkept.granted.symm

end Pool

/-! ## Sessions -/

namespace PoolSession

open Pool (Use Tenure)

/-- A user of words asks for slots that hold consecutive words. -/
def Command.use : Command → Use UInt64
  | .ensure id first => .ensure id fun i => first + UInt64.ofNat i
  | .get id => .get id
  | .set id v => .set id v

theorem step_eq_use (s : PoolSession) (t : Tenure UInt64) (h : s = ⟨t.pool, t.host⟩) (c : Command) :
    (s.step c).2 = ⟨(t.use c.use).pool, (t.use c.use).host⟩ := by
  subst h
  cases c with
  | ensure id first =>
      unfold step Tenure.use Tenure.perform Command.use
      dsimp only
      rcases t.pool.ensure t.host id _ with ⟨_ | _, pool, host⟩ <;> rfl
  | get id => rfl
  | set id v => rfl

/-- A session uses its pool, and its host, as its user says. -/
theorem run_eq_uses (allocator : Allocator) (cs : List Command) :
    let t := (Tenure.start allocator).run (cs.map Command.use)
    (start allocator).run cs = ⟨t.pool, t.host⟩ := by
  suffices hall : ∀ (s : PoolSession) (t : Tenure UInt64), s = ⟨t.pool, t.host⟩ →
      s.run cs = ⟨(t.run (cs.map Command.use)).pool, (t.run (cs.map Command.use)).host⟩ from
    hall _ _ rfl
  induction cs with
  | nil =>
      intro s t h
      exact h
  | cons c cs ih =>
      intro s t h
      exact ih _ _ (step_eq_use s t h c)

end PoolSession

end JitIndex
