import JitIndex.Proofs.Consistency
import JitIndex.Proofs.Ownership

/-!
# What a pin protects

A node that is linked while a pin is live keeps its slot, its contents and its
frame table until that pin is gone, whatever the writer does meanwhile. The
invariant is `Guarded`: the node stays linked or retired, or it is an orphan,
or it is sealed under the epoch of the pin, and then it cannot be released
while the pin is live. The one moment that matters is the turn of an epoch: it
comes only when the other epoch has no readers, so a live pin belongs to the
epoch under which the retired nodes are sealed.
-/

namespace JitIndex

open SkipList (Layout Entry Laid ids)

/-- A node that no reader of an epoch can lose. -/
def Guarded {α : Type} (sc : Scene) (epoch : Epoch) (y : Layout α) (e : Entry α) : Prop :=
  e ∈ y.linked ++ y.retired ∨ e ∈ y.orphans ∨
    e ∈ y.sealed ∧ (sc.view.sealedEpoch = some epoch ∨ sc.writer = false)

section

variable {α : Type} {a b : Scene} {epoch : Epoch} {y y' : Layout α} {e : Entry α}

theorem Guarded.mem_entries (h : Guarded a epoch y e) : e ∈ y.entries := by
  unfold Layout.entries
  rcases h with h | h | ⟨h, -⟩
  · rcases List.mem_append.mp h with h | h <;> simp [h]
  · simp [h]
  · simp [h]

theorem Guarded.mem_owners {sc : Scene} {v : View} {e : Entry CodeRecord}
    (h : Guarded sc epoch v.code e) : e ∈ v.owners := by
  unfold View.owners
  rcases h with h | h | ⟨h, -⟩
  · rcases List.mem_append.mp h with h | h <;> simp [h]
  · simp [h]
  · simp [h]

/-! ## Every move guards what was guarded -/

/-- Nothing is released that is sealed under an epoch with readers. -/
theorem Guarded.release (h : Guarded a epoch y e) (hwriter : a.writer = true) {sealedUnder : Epoch}
    (hsealed : a.view.sealedEpoch = some sealedUnder)
    (hdrained : a.view.gate.readers sealedUnder = 0)
    (hlive : a.view.gate.readers epoch ≠ 0) : Guarded b epoch y.reclaim e := by
  rcases h with h | h | ⟨-, hunder | hgone⟩
  · exact Or.inl h
  · exact Or.inr (Or.inl h)
  · obtain rfl := Option.some.inj (hsealed.symm.trans hunder)
    exact absurd hdrained hlive
  · cases hwriter.symm.trans hgone

/-- What is retired is sealed under the epoch of every live pin. -/
theorem Guarded.turn (h : Guarded a epoch y e) (hnone : y.sealed = [])
    (hidle : a.view.gate.readers a.view.gate.epoch.other = 0)
    (hlive : a.view.gate.readers epoch ≠ 0)
    (hb : b.view.sealedEpoch = some a.view.gate.epoch) : Guarded b epoch y.sealRetired e := by
  have hepoch : epoch = a.view.gate.epoch :=
    Epoch.eq_of_ne_other fun heq => hlive (heq ▸ hidle)
  rcases h with h | h | ⟨h, -⟩
  · rcases List.mem_append.mp h with h | h
    · exact Or.inl (List.mem_append_left _ h)
    · exact Or.inr (Or.inr ⟨h, Or.inl (hepoch ▸ hb)⟩)
  · exact Or.inr (Or.inl h)
  · rw [hnone] at h
    cases h

theorem Guarded.mutate (h : Guarded a epoch y e) {added : Option (Entry α)}
    (hmut : y.Mutated added y') (hsealed : b.view.sealedEpoch = a.view.sealedEpoch)
    (hwriter : b.writer = a.writer) : Guarded b epoch y' e := by
  unfold Guarded
  rw [hmut.sealed, hmut.orphans, hsealed, hwriter]
  rcases h with h | h
  · exact Or.inl (hmut.perm.mem_iff.mpr (List.mem_append_right _ h))
  · exact Or.inr h

theorem Guarded.congr (h : Guarded a epoch y e) (hsealed : b.view.sealedEpoch = a.view.sealedEpoch)
    (hwriter : b.writer = a.writer) : Guarded b epoch y e := by
  unfold Guarded
  rw [hsealed, hwriter]
  exact h

end

theorem View.Move.slot_guarded {v w : View} {es : List Event} (h : Move v es w) (half : Half)
    {id : SlotId} (hcode : half = .code → id ∈ ids v.code.entries)
    (hdepth : half = .depth → id ∈ ids v.depth.entries) : .slotFilled half id ∉ es := by
  cases h with
  | release keep => simp [Index.disposal]
  | turn => exact List.not_mem_nil
  | refuse => simp
  | @mutate newCode newDepth code depth hmutCode hmutDepth =>
      intro hmem
      simp only [Index.arrival, List.mem_append, List.mem_flatMap, Option.mem_toList, List.mem_cons,
        reduceCtorEq, Event.slotFilled.injEq, List.not_mem_nil, or_false, false_or, List.mem_map]
        at hmem
      rcases hmem with ⟨f, hf, rfl, rfl⟩ | ⟨f, hf, rfl, rfl⟩
      · exact hmutCode.fresh f hf (hcode rfl)
      · exact hmutDepth.fresh f hf (hdepth rfl)

namespace Scene

variable {a b : Scene} {es : List Event} {n : Nat} {p : Gate.Pin}

theorem Move.slot_guarded (h : Move a es b) (half : Half) {id : SlotId}
    (hcode : half = .code → id ∈ ids a.view.code.entries)
    (hdepth : half = .depth → id ∈ ids a.view.depth.entries) : .slotFilled half id ∉ es := by
  cases h with
  | write hwriter hmove => exact hmove.slot_guarded half hcode hdepth
  | pin => exact List.not_mem_nil
  | unpin => exact List.not_mem_nil
  | leave => exact List.not_mem_nil
  | dispose => simp [Index.disposal]

theorem Orderly.live (ho : a.Orderly) (hp : a.pins[n]? = some (some p)) :
    a.view.gate.readers p.epoch ≠ 0 := by
  rw [ho.readers]
  exact Nat.ne_of_gt (pinned_pos hp)

theorem Move.guards_code (h : Move a es b) (ho : a.Orderly) (hp : a.pins[n]? = some (some p))
    {e : Entry CodeRecord} (hg : Guarded a p.epoch a.view.code e) :
    Guarded b p.epoch b.view.code e := by
  have hlive := ho.live hp
  cases h with
  | write hwriter hmove =>
      cases hmove with
      | release keep hsealed hdrained => exact hg.release hwriter hsealed hdrained hlive
      | turn hsealed =>
          obtain ⟨hcode, -, hidle⟩ := (ho.attended hwriter).idle hsealed
          exact hg.turn hcode hidle hlive rfl
      | refuse => exact hg.congr rfl rfl
      | mutate hcode hdepth => exact hg.mutate hcode rfl rfl
  | pin => exact hg.congr rfl rfl
  | unpin => exact hg.congr rfl rfl
  | leave =>
      -- what was parked is left to the list
      rcases hg with h | h | ⟨h, -⟩
      · rcases List.mem_append.mp h with h | h
        · exact Or.inl (List.mem_append_left _ h)
        · exact Or.inr (Or.inl (List.mem_append_left _ (List.mem_reverse.mpr h)))
      · exact Or.inr (Or.inl (List.mem_append_right _ (List.mem_append_right _ h)))
      · exact Or.inr (Or.inl
          (List.mem_append_right _ (List.mem_append_left _ (List.mem_reverse.mpr h))))
  | dispose hwriter hpins => cases hpins _ (List.mem_of_getElem? hp)

theorem Move.guards_depth (h : Move a es b) (ho : a.Orderly) (hp : a.pins[n]? = some (some p))
    {e : Entry Payload} (hg : Guarded a p.epoch a.view.depth e) :
    Guarded b p.epoch b.view.depth e := by
  have hlive := ho.live hp
  cases h with
  | write hwriter hmove =>
      cases hmove with
      | release keep hsealed hdrained => exact hg.release hwriter hsealed hdrained hlive
      | turn hsealed =>
          obtain ⟨-, hdepth, hidle⟩ := (ho.attended hwriter).idle hsealed
          exact hg.turn hdepth hidle hlive rfl
      | refuse => exact hg.congr rfl rfl
      | mutate hcode hdepth => exact hg.mutate hdepth rfl rfl
  | pin => exact hg.congr rfl rfl
  | unpin => exact hg.congr rfl rfl
  | leave =>
      -- nobody is left to release anything
      exact hg.imp_right fun h => h.imp_right fun h => ⟨h.1, Or.inr rfl⟩
  | dispose hwriter hpins => cases hpins _ (List.mem_of_getElem? hp)

/-- What was linked when a pin was live is guarded for as long as it is. -/
theorem Moves.guard (h : Moves a es b) (ho : a.Orderly) (hp : a.pins[n]? = some (some p))
    (hp' : b.pins[n]? = some (some p)) :
    (∀ e, Guarded a p.epoch a.view.code e →
      Guarded b p.epoch b.view.code e ∧ .slotFilled .code e.id ∉ es) ∧
    ∀ e, Guarded a p.epoch a.view.depth e →
      Guarded b p.epoch b.view.depth e ∧ .slotFilled .depth e.id ∉ es := by
  induction h with
  | refl => exact ⟨fun e hg => ⟨hg, List.not_mem_nil⟩, fun e hg => ⟨hg, List.not_mem_nil⟩⟩
  | @tail b c es fs hmoves hmove ih =>
      have hlt : n < b.pins.length :=
        Nat.lt_of_lt_of_le (List.getElem?_eq_some_iff.mp hp).1 hmoves.pin_stays.1
      have hmid := hmove.pin_stays.2 hlt hp'
      have ho' := hmoves.orderly ho
      obtain ⟨hcode, hdepth⟩ := ih hmid
      constructor
      · intro e hg
        obtain ⟨hg', hnot⟩ := hcode e hg
        have hslot := hmove.slot_guarded .code
          (fun _ => SkipList.mem_ids.mpr ⟨e, hg'.mem_entries, rfl⟩) (by rintro ⟨⟩)
        refine ⟨hmove.guards_code ho' hmid hg', fun hmem => ?_⟩
        exact (List.mem_append.mp hmem).elim hnot hslot
      · intro e hg
        obtain ⟨hg', hnot⟩ := hdepth e hg
        have hslot := hmove.slot_guarded .depth (by rintro ⟨⟩)
          (fun _ => SkipList.mem_ids.mpr ⟨e, hg'.mem_entries, rfl⟩)
        refine ⟨hmove.guards_depth ho' hmid hg', fun hmem => ?_⟩
        exact (List.mem_append.mp hmem).elim hnot hslot

end Scene

/-! ## What that means for the memory -/

/-- A node is as it was: its slot is not free and was not filled in again, and it has the key, the
payload and the height that it had. -/
structure Preserved {α : Type} (half : Half) (since : List Event) (l l' : SkipList α)
    (e : Entry α) : Prop where
  core : l'.core? e.id = l.core? e.id
  held : l'.entry? e.id = some e
  notFree : e.id ∉ l'.freeSlots
  notFilled : .slotFilled half e.id ∉ since

theorem preserved_of_guarded {α : Type} {half : Half} {es : List Event} {l l' : SkipList α}
    {y y' : Layout α} {sc : Scene} {epoch : Epoch} {e : Entry α} (h : Laid l y) (h' : Laid l' y')
    (hkeeps : Index.Keeps half es l l') (he : e ∈ y.entries) (hg : Guarded sc epoch y' e)
    (hnot : .slotFilled half e.id ∉ es) : Preserved half es l l' e where
  core := hkeeps.2 e.id (h.mem_used he) hnot
  held := h'.held e hg.mem_entries
  notFree := by
    rw [h'.freeSlots_eq]
    intro hfree
    exact h'.ne_of_free hfree hg.mem_entries rfl
  notFilled := hnot

/-- A region found in a slot is read there for as long as the slot holds it. -/
theorem Index.codeSlotAt?_codeIn? {ix ix' : Index} {v : View} (h : Index.Sound ix v)
    (hheld : ∀ e ∈ ix.code.entries, ix'.code.entry? e.id = some e) (a : Addr) :
    (ix.codeSlotAt? a).bind ix'.codeIn? = ix.codeAt? a := by
  unfold Index.codeSlotAt? Index.codeAt?
  cases hfloor : ix.code.floor? a with
  | none => rfl
  | some e =>
      have he : e ∈ ix.code.entries := by
        rw [h.code.entries_eq]
        rw [h.code.floor?_eq] at hfloor
        exact (List.mem_filter.mp (List.mem_of_getLast? hfloor)).1
      have hread : ix'.codeIn? e.id = some (CodeRegion.ofEntry e) := by
        unfold Index.codeIn?
        rw [hheld e he]
        rfl
      by_cases hcovers : (CodeRegion.ofEntry e).contains a = true
      · rw [Option.filter_some_pos (by exact hcovers), Option.map_some, Option.map_some,
          Option.filter_some_pos (by exact hcovers)]
        exact hread
      · simp [Option.filter, hcovers]

namespace Session

/-- What is linked while a pin is live stays as it is, and guarded, for as long as the pin is. -/
theorem Leads.preserves {s s' : Session} {sc sc' : Scene} {es : List Event}
    (h : Leads s sc es s' sc') (hs : Sound s sc) {n : Nat} {p : HeldPin} (hlt : n < s.pins.size)
    (hp : s'.pin? n = some p) :
    (∀ e ∈ s.index.code.entries, Preserved .code es s.index.code s'.index.code e ∧
      Guarded sc' p.pin.epoch sc'.view.code e) ∧
    ∀ e ∈ s.index.depth.entries, Preserved .depth es s.index.depth s'.index.depth e := by
  obtain ⟨p₀, hp₀, hpin⟩ := h.pin_before hs hlt hp
  obtain ⟨hcode, hdepth⟩ := h.moves.guard hs.orderly (hpin ▸ hs.pin_live hp₀) (h.sound.pin_live hp)
  constructor
  · intro e he
    rw [hs.index.code.entries_eq] at he
    obtain ⟨hg, hnot⟩ := hcode e (Or.inl (List.mem_append_left _ he))
    exact ⟨preserved_of_guarded hs.index.code h.sound.index.code h.code
      (SkipList.Laid.linked_sub _ e he) hg hnot, hg⟩
  · intro e he
    rw [hs.index.depth.entries_eq] at he
    obtain ⟨hg, hnot⟩ := hdepth e (Or.inl (List.mem_append_left _ he))
    exact preserved_of_guarded hs.index.depth h.sound.index.depth h.depth
      (SkipList.Laid.linked_sub _ e he) hg hnot

/-- While a pin is live, every region that was linked meanwhile stays in its slot as it was, its
frame table is neither dropped nor handed back, and whoever has it at hand reads what he read. -/
theorem pin_preserves {settings : Settings} {allocator : Allocator} {s₁ s₂ : Session}
    (h₁ : Acts (start settings allocator) s₁) (h₂ : Acts s₁ s₂) {n : Nat} {p₁ p₂ : HeldPin}
    (hp₁ : s₁.pin? n = some p₁) (hp₂ : s₂.pin? n = some p₂) :
    ∃ since, s₂.index.host.books = s₁.index.host.books ++ since ∧
      (∀ e ∈ s₁.index.code.entries, Preserved .code since s₁.index.code s₂.index.code e ∧
        e.payload.owned ∉ s₂.index.host.books.filterMap Event.dropped? ∧
        e.payload.owned ∉ s₂.index.host.books.filterMap Event.returned?) ∧
      (∀ e ∈ s₁.index.depth.entries, Preserved .depth since s₁.index.depth s₂.index.depth e) ∧
      (∀ a, (s₁.index.codeSlotAt? a).bind s₂.index.codeIn? = s₁.index.codeAt? a) ∧
      ∀ a b, p₂.held = s₁.index.codeSlotAt? a →
        (s₂.step (.pin n (.held b))).1 = withFrames b (s₁.index.codeAt? a) := by
  obtain ⟨sc₁, hreached₁⟩ := acts_reached settings allocator h₁
  have hsound₁ := hreached₁.leads.sound
  obtain ⟨es, sc₂, hlead, hsettled⟩ := acts_lead hsound₁ hreached₁.settled h₂
  have hsound₂ := hlead.sound
  have hreached₂ := (hreached₁.leads.trans hlead).reached hsettled
  obtain ⟨hcode, hdepth⟩ := hlead.preserves hsound₁ (lt_size_of_pin hp₁) hp₂
  have hslot := Index.codeSlotAt?_codeIn? hsound₁.index fun e he => (hcode e he).1.held
  refine ⟨es, hlead.books, fun e he => ?_, hdepth, hslot, fun a b hheld => ?_⟩
  · obtain ⟨hpreserved, hg⟩ := hcode e he
    have honce := hreached₂.accounted.once
    rw [hreached₂.places_eq] at honce
    obtain ⟨-, -, hapart⟩ := List.nodup_append.mp honce
    have howned := hapart _ (List.mem_map_of_mem hg.mem_owners)
    exact ⟨hpreserved, fun hmem => howned _ (List.mem_append_right _ hmem) rfl,
      fun hmem => howned _ (List.mem_append_left _ hmem) rfl⟩
  · unfold step
    dsimp only
    rw [hp₂]
    show withFrames b (p₂.held.bind s₂.index.codeIn?) = _
    rw [hheld, hslot]

/-- A region that a reader keeps at hand stays readable when it was replaced, the index was cleared,
and the writer is gone. -/
theorem held_after_writer :
    ((((start {} .generous).run [.writer (.addCode ⟨⟨16, 8⟩, .ofDescriptors [⟨⟨1⟩, 0, 8, 4⟩]⟩),
        .reader 0 .pin, .pin 0 (.hold 20)]).run
      [.writer (.addCode ⟨⟨16, 4⟩, .ofDescriptors []⟩), .writer .clear, .writer .drop]).step
        (.pin 0 (.held 20))).1 =
      .code (some (⟨⟨16, 8⟩, .ofDescriptors [⟨⟨1⟩, 0, 8, 4⟩]⟩, [⟨1⟩])) := by
  obtain ⟨s₁, hs₁⟩ : ∃ s₁, s₁ = (start {} .generous).run
    [.writer (.addCode ⟨⟨16, 8⟩, .ofDescriptors [⟨⟨1⟩, 0, 8, 4⟩]⟩), .reader 0 .pin,
      .pin 0 (.hold 20)] := ⟨_, rfl⟩
  obtain ⟨s₂, hs₂⟩ : ∃ s₂, s₂ = s₁.run
    [.writer (.addCode ⟨⟨16, 4⟩, .ofDescriptors []⟩), .writer .clear, .writer .drop] := ⟨_, rfl⟩
  obtain ⟨p₁, hp₁⟩ := Option.isSome_iff_exists.mp (by rw [hs₁]; decide +kernel :
    (s₁.pin? 0).isSome = true)
  obtain ⟨p₂, hp₂⟩ := Option.isSome_iff_exists.mp (by rw [hs₂, hs₁]; decide +kernel :
    (s₂.pin? 0).isSome = true)
  have hheld : (s₂.pin? 0).bind HeldPin.held = s₁.index.codeSlotAt? 20 := by
    rw [hs₂, hs₁]
    decide +kernel
  have hcode : s₁.index.codeAt? 20 = some ⟨⟨16, 8⟩, .ofDescriptors [⟨⟨1⟩, 0, 8, 4⟩]⟩ := by
    rw [hs₁]
    decide +kernel
  rw [hp₂] at hheld
  obtain ⟨since, -, -, -, -, hreply⟩ := pin_preserves (hs₁ ▸ run_acts (start {} .generous) _)
    (hs₂ ▸ run_acts s₁ _) hp₁ hp₂
  rw [← hs₁, ← hs₂, hreply 20 20 hheld, hcode]
  show Reply.code (some (_, _)) = _
  congr 3
  decide +kernel

end Session

end JitIndex
