import JitIndex.SkipList.Parking
import Mathlib.Data.List.Nodup

/-!
# Chains of slots

Every order that a skip list keeps is a chain: a function that leads from a
site to the next slot, followed until it ends. The levels of the list are
chains that hang off its head, and so are, through another field, the parked
slots, and the free ones.

`Visits` ties a chain to the list of slots it runs through. A writer only
ever changes a chain in two ways, and each has its lemma: one slot is put
behind a site (`Visits.insert`), or the slot behind a site is taken out
(`Visits.erase`). Both change the chain at the site alone, which is what
keeps the sixteen levels and the parked chains apart: `Visits.congr` carries
a chain over any change that does not touch its own sites.
-/

namespace JitIndex

namespace SkipList

/-- Following `link` from a site visits exactly `ids`, in order, and ends. -/
def Visits (link : Site → Option SlotId) : Site → List SlotId → Prop
  | site, [] => link site = none
  | site, id :: ids => link site = some id ∧ Visits link (some id) ids

/-- Where a walk stands after it visited `ids`. -/
def lastSite : Site → List SlotId → Site
  | site, [] => site
  | _, id :: ids => lastSite (some id) ids

/-- The chain that hangs off a first slot by itself. -/
def chainOf (head : Option SlotId) (next : SlotId → Option SlotId) : Site → Option SlotId :=
  fun site => site.elim head next

/-! ## Walking -/

theorem lastSite_eq_getLast? : ∀ (site : Site) (ids : List SlotId),
    lastSite site ids = ids.getLast?.or site
  | site, [] => by simp [lastSite]
  | _, [id] => rfl
  | site, _ :: b :: ids => by
      rw [List.getLast?_cons_cons, ← lastSite_eq_getLast? site (b :: ids)]
      rfl

theorem lastSite_none (ids : List SlotId) : lastSite none ids = ids.getLast? := by
  rw [lastSite_eq_getLast?, Option.or_none]

theorem lastSite_append : ∀ (site : Site) (ids rest : List SlotId),
    lastSite site (ids ++ rest) = lastSite (lastSite site ids) rest
  | _, [], _ => rfl
  | _, id :: ids, rest => lastSite_append (some id) ids rest

theorem lastSite_mem : ∀ (site : Site) (ids : List SlotId),
    lastSite site ids = site ∨ ∃ id ∈ ids, lastSite site ids = some id
  | _, [] => Or.inl rfl
  | _, id :: ids => by
      rcases lastSite_mem (some id) ids with h | ⟨last, hmem, h⟩
      · exact Or.inr ⟨id, List.mem_cons_self .., h⟩
      · exact Or.inr ⟨last, List.mem_cons_of_mem _ hmem, h⟩

variable {link link' : Site → Option SlotId}

/-- A chain is not affected by what happens elsewhere. -/
theorem Visits.congr : ∀ {site : Site} {ids : List SlotId}, Visits link site ids →
    link' site = link site → (∀ id ∈ ids, link' (some id) = link (some id)) →
    Visits link' site ids
  | _, [], h, hsite, _ => hsite.trans h
  | _, id :: _, ⟨hhead, hrest⟩, hsite, hids =>
      ⟨hsite.trans hhead, hrest.congr (hids id (List.mem_cons_self ..))
        fun x hx => hids x (List.mem_cons_of_mem _ hx)⟩

theorem Visits.unique : ∀ {site : Site} {ids ids' : List SlotId},
    Visits link site ids → Visits link site ids' → ids = ids'
  | _, [], [], _, _ => rfl
  | _, [], _ :: _, h, ⟨h', _⟩ => by
      cases h.symm.trans h'
  | _, _ :: _, [], ⟨h, _⟩, h' => by
      cases h'.symm.trans h
  | _, id :: ids, id' :: ids', ⟨h, hrest⟩, ⟨h', hrest'⟩ => by
      obtain rfl := Option.some.inj (h.symm.trans h')
      rw [hrest.unique hrest']

/-- The part of a chain behind a walk is a chain as well. -/
theorem Visits.suffix : ∀ {site : Site} {before after : List SlotId},
    Visits link site (before ++ after) → Visits link (lastSite site before) after
  | _, [], _, h => h
  | _, _ :: _, _, ⟨_, hrest⟩ => hrest.suffix

/-- A walk is followed by the first slot that it has not visited. -/
theorem Visits.link_eq_head? {site : Site} {ids : List SlotId} (h : Visits link site ids) :
    link site = ids.head? := by
  cases ids with
  | nil => exact h
  | cons id ids => exact h.1

/-! ## Changing a chain -/

/-- A slot put behind the last site of `before` comes right after it, and is
followed by what came after it. -/
theorem Visits.insert {id : SlotId} {after : List SlotId} : ∀ {site : Site} {before : List SlotId},
    Visits link site (before ++ after) →
    (site :: (before ++ after).map some).Nodup →
    some id ∉ site :: (before ++ after).map some →
    link' (lastSite site before) = some id →
    link' (some id) = link (lastSite site before) →
    (∀ s, s ≠ lastSite site before → s ≠ some id → link' s = link s) →
    Visits link' site (before ++ id :: after)
  | site, [], h, hnd, hid, hsite, hnew, hsame => by
      refine ⟨hsite, ?_⟩
      have hother : ∀ x ∈ after, link' (some x) = link (some x) := by
        intro x hx
        refine hsame _ (fun heq => ?_) (fun heq => ?_)
        · have hx' : some x = site := heq
          exact (List.nodup_cons.mp hnd).1 (hx' ▸ List.mem_map_of_mem hx)
        · exact hid (heq ▸ List.mem_cons_of_mem _ (List.mem_map_of_mem hx))
      cases after with
      | nil => exact hnew.trans h
      | cons b rest =>
          refine ⟨hnew.trans h.1, h.2.congr (hother b (List.mem_cons_self ..)) ?_⟩
          exact fun x hx => hother x (List.mem_cons_of_mem _ hx)
  | site, a :: before, ⟨ha, hrest⟩, hnd, hid, hsite, hnew, hsame => by
      obtain ⟨hnotin, hnd'⟩ := List.nodup_cons.mp hnd
      have hne : site ≠ lastSite (some a) before := by
        rcases lastSite_mem (some a) before with heq | ⟨x, hx, heq⟩
        · exact fun hs => hnotin (by rw [hs, heq]; simp)
        · exact fun hs => hnotin (by rw [hs, heq]; simp [hx])
      refine ⟨(hsame site hne fun hs => hid (hs ▸ List.mem_cons_self ..)).trans ha, ?_⟩
      exact hrest.insert hnd' (fun hmem => hid (List.mem_cons_of_mem _ hmem)) hsite hnew hsame

/-- A slot taken out from behind the last site of `before` is left out, and
what came after it stays. -/
theorem Visits.erase {id : SlotId} {after : List SlotId} : ∀ {site : Site} {before : List SlotId},
    Visits link site (before ++ id :: after) →
    (site :: (before ++ id :: after).map some).Nodup →
    link' (lastSite site before) = link (some id) →
    (∀ s, s ≠ lastSite site before → link' s = link s) →
    Visits link' site (before ++ after)
  | site, [], ⟨_, h⟩, hnd, hsite, hsame => by
      have hother : ∀ x ∈ after, link' (some x) = link (some x) := by
        intro x hx
        refine hsame _ fun heq => (List.nodup_cons.mp hnd).1 ?_
        have hx' : some x = site := heq
        subst hx'
        exact List.mem_map_of_mem (List.mem_append_right _ (List.mem_cons_of_mem _ hx))
      cases after with
      | nil => exact hsite.trans h
      | cons b rest =>
          refine ⟨hsite.trans h.1, h.2.congr (hother b (List.mem_cons_self ..)) ?_⟩
          exact fun x hx => hother x (List.mem_cons_of_mem _ hx)
  | site, a :: before, ⟨ha, hrest⟩, hnd, hsite, hsame => by
      obtain ⟨hnotin, hnd'⟩ := List.nodup_cons.mp hnd
      have hne : site ≠ lastSite (some a) before := by
        rcases lastSite_mem (some a) before with heq | ⟨x, hx, heq⟩
        · exact fun hs => hnotin (by rw [hs, heq]; simp)
        · exact fun hs => hnotin (by rw [hs, heq]; simp [hx])
      exact ⟨(hsame site hne).trans ha, hrest.erase hnd' hsite hsame⟩

/-! ## Chains of their own -/

/-- A slot put in front of a chain comes before all of it. -/
theorem Visits.push {head : Option SlotId} {next next' : SlotId → Option SlotId}
    {ids : List SlotId} {id : SlotId} (h : Visits (chainOf head next) none ids)
    (hid : next' id = head) (hids : ∀ x ∈ ids, next' x = next x) :
    Visits (chainOf (some id) next') none (id :: ids) := by
  refine ⟨rfl, ?_⟩
  cases ids with
  | nil => exact hid.trans h
  | cons b rest =>
      refine ⟨hid.trans h.1, h.2.congr (hids b (List.mem_cons_self ..)) ?_⟩
      exact fun x hx => hids x (List.mem_cons_of_mem _ hx)

/-- What is left of a chain without its first slot hangs off the slot after it. -/
theorem Visits.pop {head : Option SlotId} {next : SlotId → Option SlotId} {ids : List SlotId}
    {id : SlotId} (h : Visits (chainOf head next) none (id :: ids)) :
    head = some id ∧ Visits (chainOf (next id) next) none ids := by
  obtain ⟨hhead, hrest⟩ := h
  refine ⟨hhead, ?_⟩
  cases ids with
  | nil => exact hrest
  | cons b rest => exact ⟨hrest.1, hrest.2.congr rfl fun x _ => rfl⟩

/-- A chain of its own is not affected by what happens to other slots. -/
theorem Visits.congr_next {head : Option SlotId} {next next' : SlotId → Option SlotId}
    {ids : List SlotId} (h : Visits (chainOf head next) none ids)
    (hids : ∀ x ∈ ids, next' x = next x) : Visits (chainOf head next') none ids :=
  h.congr rfl hids

theorem visits_chainOf_none {next : SlotId → Option SlotId} :
    Visits (chainOf none next) none [] := rfl

/-- The slots that a chain runs through, at most so many. -/
def slotsFrom (next : SlotId → Option SlotId) : Nat → Option SlotId → List SlotId
  | 0, _ => []
  | _ + 1, none => []
  | fuel + 1, some id => id :: slotsFrom next fuel (next id)

theorem Visits.slotsFrom_eq {next : SlotId → Option SlotId} {fuel : Nat} {head : Option SlotId}
    {ids : List SlotId} (h : Visits (chainOf head next) none ids) (hlen : ids.length ≤ fuel) :
    slotsFrom next fuel head = ids := by
  induction ids generalizing fuel head with
  | nil =>
      obtain rfl : head = none := h
      cases fuel <;> rfl
  | cons id ids ih =>
      obtain ⟨rfl, hrest⟩ := h.pop
      cases fuel with
      | zero => cases hlen
      | succ fuel => rw [slotsFrom, ih hrest (Nat.le_of_succ_le_succ hlen)]

end SkipList

end JitIndex
