import JitIndex.Proofs.SkipList.Room
import JitIndex.Proofs.SkipList.Running
import Mathlib.Data.Set.Card
import Mathlib.Logic.Function.Basic
import Mathlib.Order.Bounds.Defs

/-!
# A skip list is a finite map

To its user a skip list is a map from keys to nodes, with some more nodes that
wait to be put into it. `Bindings.Step` says what every command of a session
owes to the map: making a node, parking and releasing leave it alone, linking
puts a node under its key, and unlinking removes one. `SkipList.Shows` says
what the look-ups owe to it, for every key from the first address to the last.

Both are read off layouts (`Laid.shows`, `Layout.Step.bindings`), so heights,
stale links and the slots' histories make no difference
(`ListSession.run_shows_bindings`). Whether a node can be made is the one thing
that a layout does not tell: it can exactly if there is room for it
(`ListSession.FitsRoom`).
-/

namespace JitIndex

open SkipList (Layout Entry Laid ids)

/-- How many nodes are inserted at a stride, of so many, before there is no room for one. -/
def ListSession.Inserts : ListSession → Addr → Addr → Nat → Nat → Prop
  | _, _, _, 0, n => n = 0
  | s, _, _, _ + 1, 0 => ¬ s.list.HasRoom s.host
  | s, key, stride, count + 1, n + 1 =>
    s.list.HasRoom s.host ∧ (s.insert key).2.Inserts (key + stride) stride count n

namespace SkipList

universe u

variable {α : Type u}

/-- The nodes of a list by their keys, and the nodes that wait to be linked. -/
structure Bindings (α : Type u) where
  waiting : List (Entry α)
  bound : Addr → Option (Entry α)

namespace Bindings

open ListSession (Made selfPayload)

def empty : Bindings α := ⟨[], fun _ => none⟩

def keys (m : Bindings α) : Set Addr := {k | (m.bound k).isSome}

/-- A node is put under its key, in the place of the one that was there. -/
def put (m : Bindings α) (e : Entry α) : Bindings α :=
  { m with bound := Function.update m.bound e.key (some e) }

def remove (m : Bindings α) (key : Addr) : Bindings α :=
  { m with bound := Function.update m.bound key none }

/-- The node has the greatest key that is at most `key`. -/
def IsFloor (m : Bindings α) (key : Addr) (e : Entry α) : Prop :=
  m.bound e.key = some e ∧ IsGreatest {k | k ∈ m.keys ∧ k ≤ key} e.key

/-- No node has the slot yet. -/
def IsNew (m : Bindings α) (id : SlotId) : Prop :=
  (∀ e ∈ m.waiting, e.id ≠ id) ∧ ∀ k e, m.bound k = some e → e.id ≠ id

/-- Nodes that hold their own keys are put into a map at a stride, from a key on. -/
def Puts (stride : Addr) : Addr → List Made → Bindings Payload → Bindings Payload → Prop
  | _, [], m, m' => m' = m
  | key, node :: nodes, m, m' =>
    m.IsNew node.id ∧ Puts stride (key + stride) nodes (m.put ⟨node.id, key, selfPayload key⟩) m'

/-- What a command of a session answers, and what it makes of the map. -/
def Step (m : Bindings Payload) (s : ListSession) :
    ListSession.Command → ListSession.Reply → Bindings Payload → Prop
  | .alloc key payload, reply, m' =>
    (¬ s.list.HasRoom s.host ∧ reply = .failed .allocation ∧ m' = m) ∨
      s.list.HasRoom s.host ∧ ∃ node : Made, reply = .made node ∧ m.IsNew node.id ∧
        m' = { m with waiting := ⟨node.id, key, payload⟩ :: m.waiting }
  | .link n, reply, m' =>
    ((m.waiting.find? fun e => e.id.val == n) = none ∧ reply = .noSuchNode ∧ m' = m) ∨
      ∃ e, (m.waiting.find? fun e => e.id.val == n) = some e ∧ reply = .unlinked (m.bound e.key) ∧
        m' = { m.put e with waiting := m.waiting.filter fun f => f.id != e.id }
  | .insert key, reply, m' =>
    (¬ s.list.HasRoom s.host ∧ reply = .failed .allocation ∧ m' = m) ∨
      s.list.HasRoom s.host ∧ ∃ node : Made, reply = .inserted node (m.bound key) ∧
        m.IsNew node.id ∧ m' = m.put ⟨node.id, key, selfPayload key⟩
  | .insertMany key stride count, reply, m' =>
    ∃ nodes, reply = .series nodes (nodes.length == count) ∧ nodes.length ≤ count ∧
      s.Inserts key stride count nodes.length ∧ Puts stride key nodes m m'
  | .unlink key, reply, m' => reply = .unlinked (m.bound key) ∧ m' = m.remove key
  | .unlinkAll, reply, m' =>
    (∃ es, reply = .released es ∧ es.Nodup ∧ ∀ e, e ∈ es ↔ m.bound e.key = some e) ∧
      m' = { m with bound := fun _ => none }
  | .get key, reply, m' => reply = .found (m.bound key) ∧ m' = m
  | .floor key, reply, m' =>
    (∃ found, reply = .floor found ∧ ∀ e, found = some e ↔ m.IsFloor key e) ∧ m' = m
  | .first, reply, m' =>
    (∃ first, reply = .first first ∧ ∀ k, first = some k ↔ IsLeast m.keys k) ∧ m' = m
  | .keys, reply, m' =>
    (∃ ks, reply = .keys ks ∧ ks.Pairwise (· < ·) ∧ ∀ k, k ∈ ks ↔ k ∈ m.keys) ∧ m' = m
  | .sealRetired, reply, m' => (reply = .done ∨ reply = .fault .unreclaimed) ∧ m' = m
  | .reclaim, reply, m' => (∃ es, reply = .released es) ∧ m' = m
  | .orphan, reply, m' => reply = .done ∧ m' = m
  | .drain, reply, m' => (∃ es, reply = .released es) ∧ m' = m

end Bindings

/-- The look-ups in a list answer what is in a map. -/
structure Shows (l : SkipList α) (m : Bindings α) : Prop where
  get : ∀ key, l.get? key = m.bound key
  floor : ∀ key e, l.floor? key = some e ↔ m.IsFloor key e
  /-- A search ends at the head exactly if no key is small enough. -/
  head : ∀ key, l.floor? key = none ↔ ∀ k ∈ m.keys, key < k
  first : ∀ k, l.first?.map (·.key) = some k ↔ IsLeast m.keys k
  entries : l.entries.Pairwise (fun e f => e.key < f.key) ∧
    ∀ e, e ∈ l.entries ↔ m.bound e.key = some e
  /-- An iteration comes to one entry per step until it ends. -/
  cursor : ∀ fuel, l.entriesFrom fuel l.cursor = l.entries.take fuel
  count : l.count = m.keys.ncard

/-! ## Reading a map off a layout -/

namespace Layout

def bindings (y : Layout α) : Bindings α := ⟨y.pending, fun k => y.linked.find? fun e => e.key == k⟩

theorem bindings_unlink (y : Layout α) (key : Addr) :
    (y.unlink key).bindings = y.bindings.remove key := by
  refine congrArg (Bindings.mk y.pending) (funext fun a => ?_)
  rw [Function.update_apply]
  refine (find?_filter_key (fun k => k != key) a).trans ?_
  by_cases ha : a = key <;> simp [ha, bindings]

theorem bindings_link (y : Layout α) (e : Entry α) :
    (y.link e).bindings =
      { y.bindings.put e with waiting := y.pending.filter fun f => f.id != e.id } := by
  refine congrArg (Bindings.mk _) (funext fun a => ?_)
  refine (find?_insert y.linked e a).trans ?_
  exact (Function.update_apply y.bindings.bound e.key (some e) a).symm

section

variable {y : Layout α} (hs : Sorted y.linked)
include hs

theorem bound_iff {k : Addr} {e : Entry α} :
    y.bindings.bound k = some e ↔ e ∈ y.linked ∧ e.key = k := find?_eq_some_iff_mem hs

theorem bound_key_iff {e : Entry α} : y.bindings.bound e.key = some e ↔ e ∈ y.linked := by
  rw [bound_iff hs, and_iff_left rfl]

theorem mem_keys_iff {k : Addr} : k ∈ y.bindings.keys ↔ ∃ e ∈ y.linked, e.key = k := by
  show (y.bindings.bound k).isSome = true ↔ _
  rw [Option.isSome_iff_exists]
  simp only [bound_iff hs]

theorem isFloor_iff {key : Addr} {e : Entry α} :
    (y.linked.filter fun f => f.key ≤ key).getLast? = some e ↔ y.bindings.IsFloor key e := by
  rw [getLast?_eq_some_iff hs, Bindings.IsFloor, bound_key_iff hs]
  constructor
  · rintro ⟨he, hle, hgreatest⟩
    refine ⟨he, ⟨(mem_keys_iff hs).mpr ⟨e, he, rfl⟩, hle⟩, ?_⟩
    rintro k ⟨hk, hkey⟩
    obtain ⟨f, hf, rfl⟩ := (mem_keys_iff hs).mp hk
    exact hgreatest f hf hkey
  · rintro ⟨he, ⟨-, hle⟩, hgreatest⟩
    exact ⟨he, hle, fun f hf hkey => hgreatest ⟨(mem_keys_iff hs).mpr ⟨f, hf, rfl⟩, hkey⟩⟩

theorem isLeast_iff {k : Addr} :
    y.linked.head?.map (·.key) = some k ↔ IsLeast y.bindings.keys k := by
  simp only [Option.map_eq_some_iff, head?_eq_some_iff hs]
  constructor
  · rintro ⟨e, ⟨he, hleast⟩, rfl⟩
    refine ⟨(mem_keys_iff hs).mpr ⟨e, he, rfl⟩, fun k hk => ?_⟩
    obtain ⟨f, hf, rfl⟩ := (mem_keys_iff hs).mp hk
    exact hleast f hf
  · rintro ⟨hk, hleast⟩
    obtain ⟨e, he, rfl⟩ := (mem_keys_iff hs).mp hk
    exact ⟨e, ⟨he, fun f hf => hleast ((mem_keys_iff hs).mpr ⟨f, hf, rfl⟩)⟩, rfl⟩

theorem length_eq_ncard : y.linked.length = y.bindings.keys.ncard := by
  have hkeys : (y.linked.map (·.key)).Nodup := by
    rw [List.Nodup, List.pairwise_map]
    exact hs.imp UInt64.ne_of_lt
  have hset : y.bindings.keys = ↑(y.linked.map (·.key)).toFinset := by
    ext k
    rw [mem_keys_iff hs, List.coe_toFinset, Set.mem_ofPred_eq, List.mem_map]
  rw [hset, Set.ncard_coe_finset, List.toFinset_card_of_nodup hkeys, List.length_map]

end

end Layout

theorem Laid.shows {l : SkipList α} {y : Layout α} (h : Laid l y) : l.Shows y.bindings where
  get key := h.get?_eq key
  floor key e := by rw [h.floor?_eq, Layout.isFloor_iff h.sorted]
  head key := by
    rw [h.floor?_eq, List.getLast?_eq_none_iff, List.filter_eq_nil_iff]
    constructor
    · intro hnone k hk
      obtain ⟨e, he, rfl⟩ := (Layout.mem_keys_iff h.sorted).mp hk
      exact UInt64.not_le.mp (by simpa using hnone e he)
    · intro habove e he
      have hlt := habove e.key ((Layout.mem_keys_iff h.sorted).mpr ⟨e, he, rfl⟩)
      simpa using hlt
  first k := by rw [h.first?_eq, Layout.isLeast_iff h.sorted]
  entries := by
    rw [h.entries_eq]
    exact ⟨h.sorted, fun e => (Layout.bound_key_iff h.sorted).symm⟩
  cursor fuel := by rw [h.entriesFrom_cursor, h.entries_eq]
  count := h.count.trans (Layout.length_eq_ncard h.sorted)

end SkipList

/-! ## Room -/

namespace ListSession

/-- A reply tells what room there was for the nodes that were to be made. -/
def FitsRoom (s : ListSession) : Command → Reply → Prop
  | .alloc _ _, reply | .insert _, reply => reply ≠ .failed .allocation ↔ s.list.HasRoom s.host
  | .insertMany key stride count, reply =>
    ∀ nodes complete, reply = .series nodes complete → s.Inserts key stride count nodes.length
  | _, _ => True

namespace Sound

variable {s : ListSession} {y : Layout Payload}

theorem insert_ok_iff (h : Sound s y) (key : Addr) :
    (∃ node, (s.insert key).1 = .ok node) ↔ s.list.HasRoom s.host := by
  have hroom : (∃ id, (s.list.alloc s.host key (selfPayload key)).1 = .ok id) ↔
      s.list.HasRoom s.host := h.laid.alloc_ok_iff
  rw [← hroom]
  unfold ListSession.insert
  rcases s.list.alloc s.host key (selfPayload key) with ⟨f | id, list, host⟩ <;> simp

theorem insertMany_inserts (h : Sound s y) (key stride : Addr) (count : Nat) :
    s.Inserts key stride count (s.insertMany key stride count).1.length := by
  induction count generalizing s y key with
  | zero => rfl
  | succ count ih =>
      have hroom := h.insert_ok_iff key
      rw [ListSession.insertMany]
      rcases h.insert_sound key with ⟨host, heq⟩ | ⟨node, s₁, heq, -, h₁⟩ <;> rw [heq] at hroom ⊢
      · intro hthere
        obtain ⟨_, hok⟩ := hroom.mpr hthere
        cases hok
      · refine ⟨hroom.mp ⟨_, rfl⟩, ?_⟩
        rw [heq]
        exact ih h₁ (key + stride)

theorem fits_room (h : Sound s y) (c : Command) : s.FitsRoom c (s.step c).1 := by
  cases c with
  | alloc key payload =>
      have hroom : (∃ id, (s.list.alloc s.host key payload).1 = .ok id) ↔
          s.list.HasRoom s.host := h.laid.alloc_ok_iff
      show (s.step _).1 ≠ _ ↔ _
      rw [ListSession.step, ← hroom]
      rcases h.alloc_sound key payload with ⟨host, heq⟩ | ⟨id, list, host, heq, -, -⟩ <;>
        rw [heq] <;> simp
  | insert key =>
      have hroom := h.insert_ok_iff key
      show (s.step _).1 ≠ _ ↔ _
      rw [ListSession.step, ← hroom]
      rcases h.insert_sound key with ⟨host, heq⟩ | ⟨node, s', heq, -, -⟩ <;> rw [heq] <;> simp
  | insertMany key stride count =>
      intro nodes complete hreply
      obtain ⟨rfl, -⟩ := Reply.series.inj hreply
      exact h.insertMany_inserts key stride count
  | _ => trivial

end Sound

end ListSession

namespace SkipList

/-! ## Commands -/

namespace Layout

theorem Offers.isNew {y : Layout Payload} {id : SlotId} (h : y.Offers id) :
    y.bindings.IsNew id := by
  have hne : ∀ e ∈ y.entries, e.id ≠ id := fun e he heq =>
    h.2 (List.mem_append_left _ (mem_ids.mpr ⟨e, he, heq⟩))
  refine ⟨fun e he => hne e (List.mem_append_left _ he), fun k e he => hne e ?_⟩
  exact Laid.linked_sub y e (List.mem_of_find?_eq_some he)

/-- A node that is linked at once never waits. -/
theorem Offers.bindings_insert {y : Layout Payload} {e : Entry Payload} (h : y.Offers e.id) :
    (y.insert e).bindings = y.bindings.put e := by
  refine ((y.make e).bindings_link e).trans ?_
  have hwaiting : (e :: y.pending).filter (fun f => f.id != e.id) = y.pending := by
    rw [List.filter_cons_of_neg (by simp), List.filter_eq_self]
    exact fun f hf => by simpa using h.isNew.1 f hf
  exact congrArg (fun es => (⟨es, _⟩ : Bindings Payload)) hwaiting

theorem Inserted.puts {stride key : Addr} {nodes : List ListSession.Made} {y y' : Layout Payload}
    (h : Inserted stride key nodes y y') :
    Bindings.Puts stride key nodes y.bindings y'.bindings := by
  induction h with
  | nil => rfl
  | cons hoffers _ ih =>
      rw [hoffers.bindings_insert] at ih
      exact ⟨hoffers.isNew, ih⟩

theorem Step.bindings {y y' : Layout Payload} {s : ListSession} {c : ListSession.Command}
    {reply : ListSession.Reply} (h : y.Step c reply y') (hs : Sorted y.linked)
    (hroom : s.FitsRoom c reply) : y.bindings.Step s c reply y'.bindings := by
  cases h with
  | allocRefused => exact Or.inl ⟨fun hthere => hroom.mpr hthere rfl, rfl, rfl⟩
  | alloc hoffers => exact Or.inr ⟨hroom.mp (by rintro ⟨⟩), _, rfl, hoffers.isNew, rfl⟩
  | linkNone hfind => exact Or.inl ⟨hfind, rfl, rfl⟩
  | link hfind => exact Or.inr ⟨_, hfind, rfl, y.bindings_link _⟩
  | insertRefused => exact Or.inl ⟨fun hthere => hroom.mpr hthere rfl, rfl, rfl⟩
  | insert hoffers =>
      exact Or.inr ⟨hroom.mp (by rintro ⟨⟩), _, rfl, hoffers.isNew, hoffers.bindings_insert⟩
  | insertMany hlen hinserted => exact ⟨_, rfl, hlen, hroom _ _ rfl, hinserted.puts⟩
  | unlink => exact ⟨rfl, y.bindings_unlink _⟩
  | unlinkAll hperm =>
      have hnd : y.linked.Nodup := hs.imp fun {e f} hlt heq => UInt64.ne_of_lt hlt (congrArg _ heq)
      refine ⟨⟨_, rfl, hperm.nodup_iff.mpr hnd, fun e => ?_⟩, rfl⟩
      rw [hperm.mem_iff, bound_key_iff hs]
  | get => exact ⟨rfl, rfl⟩
  | floor => exact ⟨⟨_, rfl, fun e => isFloor_iff hs⟩, rfl⟩
  | first => exact ⟨⟨_, rfl, fun k => isLeast_iff hs⟩, rfl⟩
  | keys =>
      refine ⟨⟨_, rfl, ?_, fun k => ?_⟩, rfl⟩
      · exact List.pairwise_map.mpr hs
      · rw [mem_keys_iff hs, List.mem_map]
  | sealFault => exact ⟨Or.inr rfl, rfl⟩
  | sealRetired => exact ⟨Or.inl rfl, rfl⟩
  | reclaim => exact ⟨⟨_, rfl⟩, rfl⟩
  | orphan => exact ⟨rfl, rfl⟩
  | drain => exact ⟨⟨_, rfl⟩, rfl⟩

end Layout

end SkipList

/-! ## Sessions -/

namespace ListSession

/-- The map that a list is, and the nodes that its writer has made for it. -/
def bindings (s : ListSession) : SkipList.Bindings Payload :=
  ⟨s.pending.filterMap s.list.entry?, s.list.get?⟩

theorem Sound.bindings_eq {s : ListSession} {y : Layout Payload} (h : Sound s y) :
    s.bindings = y.bindings := by
  have hwaiting : ∀ es, (∀ e ∈ es, e ∈ y.entries) → (ids es).filterMap s.list.entry? = es := by
    intro es hes
    induction es with
    | nil => rfl
    | cons e es ih =>
        have he := h.laid.held e (hes e (List.mem_cons_self ..))
        rw [ids, List.map_cons, List.filterMap_cons_some he]
        exact congrArg (e :: ·) (ih fun f hf => hes f (List.mem_cons_of_mem _ hf))
  unfold bindings
  rw [h.pending, hwaiting y.pending fun e he => List.mem_append_left _ he]
  exact congrArg (SkipList.Bindings.mk y.pending) (funext h.laid.get?_eq)

/-- A list starts empty, its look-ups show what is bound, and each command does to the map what it
owes to its user. -/
theorem run_shows_bindings (seed : UInt64) (allocator : Allocator) :
    (start seed allocator).bindings = .empty ∧
    ∀ cs, ((start seed allocator).run cs).list.Shows ((start seed allocator).run cs).bindings ∧
      ∀ c, ((start seed allocator).run cs).bindings.Step ((start seed allocator).run cs) c
        (((start seed allocator).run cs).step c).1
        (((start seed allocator).run cs).step c).2.bindings := by
  refine ⟨(start_sound seed allocator).bindings_eq, fun cs => ?_⟩
  obtain ⟨y, h⟩ := run_sound seed allocator cs
  refine ⟨h.bindings_eq ▸ h.laid.shows, fun c => ?_⟩
  obtain ⟨y', hstep, h'⟩ := h.step c
  rw [h.bindings_eq, h'.bindings_eq]
  exact hstep.bindings h.laid.sorted (h.fits_room c)

end ListSession

end JitIndex
