import JitIndex.Proofs.SkipList.Alloc
import JitIndex.Proofs.SkipList.Parking
import JitIndex.SkipList.Session

/-!
# Using a laid-out list

A session of a list is a machine over layouts. `Layout.Step` says for every
command what it may answer and what it makes of the layout; what a command
leaves open is only whether memory is refused, and the height of a new node.

- `ListSession.Sound.step`: a command takes a laid-out list to a laid-out list,
  as `Layout.Step` says;
- `ListSession.run_sound`: so a list is laid out at every moment of a run, and
  what holds of layouts step by step holds of runs.
-/

namespace JitIndex

open SkipList (Layout Entry Laid ids)

namespace SkipList.Layout

open ListSession (Made selfPayload)

/-- The slot is where the next node is made: the one that became free last, or, if there is none,
one that was not handed out before. -/
def Offers {α : Type} (y : Layout α) (id : SlotId) : Prop :=
  (y.free.head? = some id ∨ y.free = []) ∧ id ∉ ids y.entries ++ y.gone

/-- The layout after a node was made and linked at once. -/
def insert {α : Type} (y : Layout α) (e : Entry α) : Layout α := (y.make e).link e

/-- Nodes that hold their own keys were inserted at a stride, from a key on. -/
inductive Inserted (stride : Addr) : Addr → List Made → Layout Payload → Layout Payload → Prop where
  | nil {key : Addr} {y : Layout Payload} : Inserted stride key [] y y
  | cons {key : Addr} {node : Made} {nodes : List Made} {y y' : Layout Payload} :
    y.Offers node.id →
    Inserted stride (key + stride) nodes (y.insert ⟨node.id, key, selfPayload key⟩) y' →
    Inserted stride key (node :: nodes) y y'

/-- What a command may answer, and what it makes of the layout. -/
inductive Step (y : Layout Payload) :
    ListSession.Command → ListSession.Reply → Layout Payload → Prop where
  | allocRefused {key : Addr} {payload : Payload} :
    Step y (.alloc key payload) (.failed .allocation) y
  | alloc {key : Addr} {payload : Payload} {node : Made} : y.Offers node.id →
    Step y (.alloc key payload) (.made node) (y.make ⟨node.id, key, payload⟩)
  | linkNone {n : Nat} : (y.pending.find? fun e => e.id.val == n) = none →
    Step y (.link n) .noSuchNode y
  | link {n : Nat} {e : Entry Payload} : (y.pending.find? fun e => e.id.val == n) = some e →
    Step y (.link n) (.unlinked (y.linked.find? fun f => f.key == e.key)) (y.link e)
  | insertRefused {key : Addr} : Step y (.insert key) (.failed .allocation) y
  | insert {key : Addr} {node : Made} : y.Offers node.id →
    Step y (.insert key) (.inserted node (y.linked.find? fun f => f.key == key))
      (y.insert ⟨node.id, key, selfPayload key⟩)
  | insertMany {key stride : Addr} {count : Nat} {nodes : List Made} {y' : Layout Payload} :
    nodes.length ≤ count → Inserted stride key nodes y y' →
    Step y (.insertMany key stride count) (.series nodes (nodes.length == count)) y'
  | unlink {key : Addr} :
    Step y (.unlink key) (.unlinked (y.linked.find? fun e => e.key == key)) (y.unlink key)
  | unlinkAll {es : List (Entry Payload)} : es.Perm y.linked →
    Step y .unlinkAll (.released es) { y with linked := [], retired := es.reverse ++ y.retired }
  | get {key : Addr} : Step y (.get key) (.found (y.linked.find? fun e => e.key == key)) y
  | floor {key : Addr} :
    Step y (.floor key) (.floor (y.linked.filter fun e => e.key ≤ key).getLast?) y
  | first : Step y .first (.first (y.linked.head?.map (·.key))) y
  | keys : Step y .keys (.keys (y.linked.map (·.key))) y
  | sealFault : y.sealed ≠ [] → Step y .sealRetired (.fault .unreclaimed) y
  | sealRetired : y.sealed = [] →
    Step y .sealRetired .done { y with retired := [], sealed := y.retired }
  | reclaim :
    Step y .reclaim (.released y.sealed)
      { y with sealed := [], free := (ids y.sealed).reverse ++ y.free }
  | orphan :
    Step y .orphan .done
      { y with
        retired := [], sealed := [],
        orphans := y.retired.reverse ++ (y.sealed.reverse ++ y.orphans) }
  | drain :
    Step y .drain (.released y.orphans) { y with orphans := [], gone := ids y.orphans ++ y.gone }

end SkipList.Layout

namespace ListSession

/-- The list is laid out as `y`, and its writer knows which nodes wait to be linked. -/
structure Sound (s : ListSession) (y : Layout Payload) : Prop where
  laid : Laid s.list y
  pending : s.pending = ids y.pending

theorem start_sound (seed : UInt64) (allocator : Allocator) : Sound (start seed allocator) {} :=
  ⟨SkipList.ofSeed_laid seed, rfl⟩

namespace Sound

variable {s : ListSession} {y : Layout Payload}

theorem nodup_pending (h : Sound s y) : (ids y.pending).Nodup := by
  have hnd := h.laid.nodup_ids
  rw [Layout.entries, SkipList.ids_append] at hnd
  exact (List.nodup_append.mp hnd).1

theorem find?_pending (h : Sound s y) (n : Nat) :
    (s.pending.find? fun p => p.val == n) =
      (y.pending.find? fun e => e.id.val == n).map (·.id) := by
  rw [h.pending, ids, List.find?_map]
  rfl

theorem offers (h : Sound s y) {id : SlotId}
    (hfresh : y.free.head? = some id ∨ y.free = [] ∧ s.list.used < id.val) : y.Offers id := by
  refine ⟨hfresh.imp_right And.left, fun hmem => ?_⟩
  rcases hfresh with hfirst | ⟨-, hnew⟩
  · -- a free slot is in no other place
    have hnd : (y.free ++ (ids y.entries ++ y.gone)).Nodup := h.laid.nodup.perm <| by
      rw [Layout.slots, ← List.append_assoc, ← List.append_assoc]
      exact List.perm_append_comm.append_right _
    exact (List.nodup_append.mp hnd).2.2 id (List.mem_of_mem_head? hfirst) id hmem rfl
  · have hslot : id ∈ y.slots := by
      simp only [Layout.slots, List.mem_append] at hmem ⊢
      tauto
    exact absurd (h.laid.mem_slots.mp hslot) (Nat.not_le_of_lt hnew)

/-! ## Making a node -/

/-- A node that was made waits to be linked, unless memory was refused. -/
theorem alloc_sound (h : Sound s y) (key : Addr) (payload : Payload) :
    (∃ host, s.list.alloc s.host key payload = (.error .allocation, s.list, host)) ∨
    ∃ id list host, s.list.alloc s.host key payload = (.ok id, list, host) ∧ y.Offers id ∧
      Laid list (y.make ⟨id, key, payload⟩) := by
  rcases h.laid.alloc_cases s.host key payload with
    ⟨host, heq, -⟩ | ⟨id, list, host, heq, -, hfresh, -, hlaid, -⟩
  · exact Or.inl ⟨host, heq⟩
  · exact Or.inr ⟨id, list, host, heq, h.offers hfresh, hlaid⟩

/-- A node that is linked at once takes the place of the one with its key, and all others wait as
they did. -/
theorem insert_sound (h : Sound s y) (key : Addr) :
    (∃ host, s.insert key = (.error .allocation, { s with host })) ∨
    ∃ node s', s.insert key = (.ok (node, y.linked.find? fun f => f.key == key), s') ∧
      y.Offers node.id ∧ Sound s' (y.insert ⟨node.id, key, selfPayload key⟩) := by
  unfold ListSession.insert
  rcases h.alloc_sound key (selfPayload key) with
    ⟨host, heq⟩ | ⟨id, list, host, heq, hoffers, hlaid⟩
  · rw [heq]
    exact Or.inl ⟨host, rfl⟩
  · obtain ⟨list', hlink, hlaid', -, -⟩ := hlaid.link_eq (List.mem_cons_self ..)
    rw [heq]
    dsimp only
    rw [hlink]
    refine Or.inr ⟨_, _, rfl, hoffers, hlaid', ?_⟩
    -- the new node is the only one that stopped waiting
    have hnd : (ids ([] ++ ⟨id, key, selfPayload key⟩ :: y.pending)).Nodup := by
      have hnd := hlaid.nodup_ids
      rw [Layout.entries, SkipList.ids_append] at hnd
      exact (List.nodup_append.mp hnd).1
    exact h.pending.trans (congrArg ids (Laid.filter_id_ne hnd).symm)

theorem insertMany_sound (h : Sound s y) (key stride : Addr) (count : Nat) :
    ∃ nodes s' y', s.insertMany key stride count = (nodes, nodes.length == count, s') ∧
      nodes.length ≤ count ∧ Layout.Inserted stride key nodes y y' ∧ Sound s' y' := by
  induction count generalizing s y key with
  | zero => exact ⟨[], s, y, rfl, Nat.le_refl _, .nil, h⟩
  | succ count ih =>
      rw [ListSession.insertMany]
      rcases h.insert_sound key with ⟨host, heq⟩ | ⟨node, s₁, heq, hoffers, h₁⟩
      · rw [heq]
        exact ⟨[], _, y, rfl, Nat.zero_le _, .nil, h.laid, h.pending⟩
      · obtain ⟨nodes, s', y', hrest, hlen, hinserted, h'⟩ := ih h₁ (key + stride)
        rw [heq]
        dsimp only
        rw [hrest]
        refine ⟨node :: nodes, s', y', ?_, Nat.succ_le_succ hlen, .cons hoffers hinserted, h'⟩
        simp

/-! ## Commands -/

/-- Linking a node that waits for it leaves the others waiting. -/
theorem link_sound (h : Sound s y) {e : Entry Payload} (he : e ∈ y.pending) :
    ∃ list, s.list.link e.id = (y.linked.find? fun f => f.key == e.key, list) ∧
      Sound { s with list, pending := s.pending.erase e.id } (y.link e) := by
  obtain ⟨list, hlink, hlaid, -, -⟩ := h.laid.link_eq he
  refine ⟨list, hlink, hlaid, ?_⟩
  show s.pending.erase e.id = ids (y.pending.filter fun f => f.id != e.id)
  rw [h.pending, h.nodup_pending.erase_eq_filter, ids, List.filter_map]
  rfl

theorem step (h : Sound s y) (c : Command) :
    ∃ y', y.Step c (s.step c).1 y' ∧ Sound (s.step c).2 y' := by
  cases c with
  | alloc key payload =>
      rw [ListSession.step]
      rcases h.alloc_sound key payload with ⟨host, heq⟩ | ⟨id, list, host, heq, hoffers, hlaid⟩
      · rw [heq]
        exact ⟨y, .allocRefused, h.laid, h.pending⟩
      · rw [heq]
        exact ⟨_, .alloc hoffers, hlaid, congrArg (id :: ·) h.pending⟩
  | link n =>
      rw [ListSession.step, h.find?_pending]
      cases hfind : y.pending.find? fun e => e.id.val == n with
      | none => exact ⟨y, .linkNone hfind, h⟩
      | some e =>
          obtain ⟨list, hlink, h'⟩ := h.link_sound (List.mem_of_find?_eq_some hfind)
          simp only [Option.map_some, hlink]
          exact ⟨_, .link hfind, h'⟩
  | insert key =>
      rw [ListSession.step]
      rcases h.insert_sound key with ⟨host, heq⟩ | ⟨node, s', heq, hoffers, h'⟩
      · rw [heq]
        exact ⟨y, .insertRefused, h.laid, h.pending⟩
      · rw [heq]
        exact ⟨_, .insert hoffers, h'⟩
  | insertMany key stride count =>
      obtain ⟨nodes, s', y', heq, hlen, hinserted, h'⟩ := h.insertMany_sound key stride count
      rw [ListSession.step, heq]
      exact ⟨y', .insertMany hlen hinserted, h'⟩
  | unlink key =>
      obtain ⟨list, heq, hlaid, -, -⟩ := h.laid.unlink_eq key
      rw [ListSession.step, heq]
      exact ⟨_, .unlink, hlaid, h.pending⟩
  | unlinkAll =>
      obtain ⟨es, list, heq, hperm, hlaid, -, -⟩ := h.laid.unlinkAll_spec
      rw [ListSession.step, heq]
      exact ⟨_, .unlinkAll hperm, hlaid, h.pending⟩
  | get key =>
      rw [ListSession.step, h.laid.get?_eq]
      exact ⟨y, .get, h⟩
  | floor key =>
      rw [ListSession.step, h.laid.floor?_eq]
      exact ⟨y, .floor, h⟩
  | first =>
      rw [ListSession.step, h.laid.first?_eq]
      exact ⟨y, .first, h⟩
  | keys =>
      rw [ListSession.step, h.laid.entries_eq]
      exact ⟨y, .keys, h⟩
  | sealRetired =>
      rw [ListSession.step, h.laid.hasSealed_eq]
      cases hsealed : y.sealed with
      | nil => exact ⟨_, .sealRetired hsealed, h.laid.sealRetired_laid hsealed, h.pending⟩
      | cons e es => exact ⟨y, .sealFault (by simp [hsealed]), h⟩
  | reclaim =>
      obtain ⟨list, heq, hlaid, -, -⟩ := h.laid.reclaim_eq
      rw [ListSession.step, heq]
      exact ⟨_, .reclaim, hlaid, h.pending⟩
  | orphan => exact ⟨_, .orphan, h.laid.orphan_laid.1, h.pending⟩
  | drain =>
      obtain ⟨list, heq, hlaid, -, -⟩ := h.laid.drain_eq
      rw [ListSession.step, heq]
      exact ⟨_, .drain, hlaid, h.pending⟩

theorem run (h : Sound s y) (cs : List Command) : ∃ y', Sound (s.run cs) y' := by
  induction cs generalizing s y with
  | nil => exact ⟨y, h⟩
  | cons c cs ih =>
      obtain ⟨y₁, -, h₁⟩ := h.step c
      exact ih h₁

end Sound

theorem run_sound (seed : UInt64) (allocator : Allocator) (cs : List Command) :
    ∃ y, Sound ((start seed allocator).run cs) y := (start_sound seed allocator).run cs

end ListSession

end JitIndex
