import JitIndex.Proofs.GracePeriod
import JitIndex.Proofs.Index.Rounds
import JitIndex.Proofs.Refusal

/-!
# Collections are exhaustive

A collection never waits, and it does not give up early either. It stops in
front of a batch of sealed nodes that has a reader, or else there is nothing
left to release (`Collects.ended`). Readers of the other epoch are never in the
way: a batch is released by the first collection that comes when no reader of
its own epoch is left (`Collects.released`), and until then it waits
(`Collects.waiting`). All of that is for every state that acts lead to, also
between the polls of a removal (`collection_exhaustive`).

Nothing that a reader can look up changes by a collection. What may change is
the epoch, and with it the room for readers: `collection_lets_in` is about the
reader who comes when the old epoch is full.
-/

namespace JitIndex

open SkipList (Layout Entry Laid ids)

/-! ## Batches -/

namespace Index

variable {ix : Index} {v : View}

/-- What is sealed is released if the readers of its epoch have left. -/
theorem collectKeeping_releases (h : Sound ix v) (ho : v.Orderly) {epoch : Epoch}
    (hsealed : ix.sealedEpoch = some epoch) (hdrained : v.gate.readers epoch = 0)
    (keep : Option SlotId) :
    (∀ e ∈ v.code.sealed, e.id ∈ (ix.collectKeeping keep).2.code.freeSlots ∧
      tableOf e ∈ (ix.collectKeeping keep).2.host.books.filterMap Event.returned? ++
        (ix.collectKeeping keep).2.host.books.filterMap Event.dropped?) ∧
    ∀ e ∈ v.depth.sealed, e.id ∈ (ix.collectKeeping keep).2.depth.freeSlots := by
  have hgate : ix.gate.hasDrained epoch = true := by
    rw [h.gate.hasDrained_eq]
    exact decide_eq_true hdrained
  obtain ⟨-, hlead⟩ := release_leads h hsealed hgate keep
  have ho' := hlead.moves.orderly ho
  obtain ⟨hcode, hdepth⟩ := collectKeeping_frees (ix.release epoch keep).2 keep hlead.sound ho'
  obtain ⟨es, released, w, hrest, -, -⟩ :=
    collectKeeping_spec (ix.release epoch keep).2 keep hlead.sound ho'
  rw [hlead.sound.code.freeSlots_eq] at hcode
  rw [hlead.sound.depth.freeSlots_eq] at hdepth
  rw [collectKeeping_release keep hsealed hgate]
  constructor
  · intro e he
    constructor
    · refine hcode (List.mem_append_left _ ?_)
      rw [List.mem_reverse]
      exact List.mem_map_of_mem he
    · have hgone := (filterMap_disposal keep v.code.sealed).2.mem_iff.mpr (List.mem_map_of_mem he)
      rw [hrest.books, hlead.books]
      simp only [List.filterMap_append, List.mem_append] at hgone ⊢
      tauto
  · intro e he
    refine hdepth (List.mem_append_left _ ?_)
    rw [List.mem_reverse]
    exact List.mem_map_of_mem he

end Index

namespace Scene

variable {a b : Scene} {es : List Event} {n : Nat} {p : Gate.Pin}

/-- What is sealed stays so while its epoch has a reader. -/
theorem Move.sealed_waits (h : Move a es b) (hwriter : b.writer = true)
    (hsealed : a.view.sealedEpoch = some p.epoch) (hlive : a.view.gate.readers p.epoch ≠ 0) :
    a.writer = true ∧ b.view.sealedEpoch = some p.epoch ∧
      b.view.code.sealed = a.view.code.sealed ∧ b.view.depth.sealed = a.view.depth.sealed := by
  cases h with
  | write hwriter' hmove =>
      cases hmove with
      | release keep hunder hdrained =>
          cases hsealed.symm.trans hunder
          exact absurd hdrained hlive
      | turn hnone => cases hsealed.symm.trans hnone
      | refuse => exact ⟨hwriter', hsealed, rfl, rfl⟩
      | mutate hcode hdepth => exact ⟨hwriter', hsealed, hcode.sealed, hdepth.sealed⟩
  | pin => exact ⟨hwriter, hsealed, rfl, rfl⟩
  | unpin => exact ⟨hwriter, hsealed, rfl, rfl⟩
  | leave => cases hwriter
  | dispose hgone => cases hgone.symm.trans hwriter

theorem Moves.sealed_waits (h : Moves a es b) (ho : a.Orderly) (hwriter : b.writer = true)
    (hp : a.pins[n]? = some (some p)) (hp' : b.pins[n]? = some (some p))
    (hsealed : a.view.sealedEpoch = some p.epoch) :
    b.view.sealedEpoch = some p.epoch ∧ b.view.code.sealed = a.view.code.sealed ∧
      b.view.depth.sealed = a.view.depth.sealed := by
  induction h with
  | refl => exact ⟨hsealed, rfl, rfl⟩
  | @tail b c es fs hmoves hmove ih =>
      have hlt : n < b.pins.length :=
        Nat.lt_of_lt_of_le (List.getElem?_eq_some_iff.mp hp).1 hmoves.pin_stays.1
      have hmid := hmove.pin_stays.2 hlt hp'
      have hlive := (hmoves.orderly ho).live hmid
      have hback : b.writer = true := by
        cases hmove with
        | write hthere => exact hthere
        | pin => exact hwriter
        | unpin => exact hwriter
        | leave => cases hwriter
        | dispose hgone => cases hgone.symm.trans hwriter
      obtain ⟨hepoch, hcode, hdepth⟩ := ih hback hmid
      obtain ⟨-, hepoch', hcode', hdepth'⟩ := hmove.sealed_waits hwriter hepoch hlive
      exact ⟨hepoch', hcode'.trans hcode, hdepth'.trans hdepth⟩

end Scene

namespace Session

variable {settings : Settings} {allocator : Allocator} {s s' : Session} {sc sc' : Scene}

/-! ## Epochs and pins -/

/-- An epoch has readers exactly if there is a pin in it. -/
theorem Sound.reading_iff (h : Sound s sc) (e : Epoch) :
    sc.view.gate.readers e ≠ 0 ↔ ∃ n p, s.pin? n = some p ∧ p.pin.epoch = e := by
  rw [h.orderly.readers]
  constructor
  · intro hpos
    obtain ⟨q, hq, hepoch⟩ := List.countP_pos_iff.mp (Nat.pos_of_ne_zero hpos)
    obtain ⟨n, hn⟩ := List.mem_iff_getElem?.mp hq
    rcases q with _ | p
    · cases hepoch
    · obtain ⟨held, hp⟩ := h.pin?_of_live hn
      exact ⟨n, ⟨p, held⟩, hp, by simpa using hepoch⟩
  · rintro ⟨n, p, hp, rfl⟩
    exact Nat.ne_of_gt (Scene.pinned_pos (h.pin_live hp))

/-- Acts that leave a pin alone leave what is sealed under its epoch alone. -/
theorem sealed_waits (h : Sound s sc) (hs : Settled s sc) (hacts : Acts s s')
    (hwriter : s'.writer = true) {n : Nat} {p p' : HeldPin} (hp : s.pin? n = some p)
    (hp' : s'.pin? n = some p') (hsealed : s.index.sealedEpoch = some p.pin.epoch) :
    s'.index.sealedEpoch = some p.pin.epoch ∧
      s'.index.code.sealedEntries = s.index.code.sealedEntries ∧
      s'.index.depth.sealedEntries = s.index.depth.sealedEntries := by
  obtain ⟨es, sc', hlead, -⟩ := acts_lead h hs hacts
  obtain ⟨q, hq, hsame⟩ := hlead.pin_before h (lt_size_of_pin hp) hp'
  cases hp.symm.trans hq
  obtain ⟨hepoch, hcode, hdepth⟩ := hlead.moves.sealed_waits h.orderly
    (hlead.sound.writer.trans hwriter) (h.pin_live hp) (hsame ▸ hlead.sound.pin_live hp')
    (h.index.sealedEpoch ▸ hsealed)
  rw [hlead.sound.index.sealedEpoch, hlead.sound.index.code.sealedEntries_eq,
    hlead.sound.index.depth.sealedEntries_eq, h.index.code.sealedEntries_eq,
    h.index.depth.sealedEntries_eq]
  exact ⟨hepoch, hcode, hdepth⟩

/-! ## A whole collection -/

/-- What a collection makes of a session `s`. -/
structure Collects (keep : Option SlotId) (s s' : Session) : Prop where
  /-- There are three rounds at most, whatever they are. -/
  bounded : ∀ n ix, Index.Rounds keep n s.index ix → n ≤ 3
  /-- It goes round until no further round is possible. -/
  rounds : (∃ n, Index.Rounds keep n s.index s'.index) ∧ ∀ ix, ¬ Index.Round keep s'.index ix
  /-- Something sealed has a reader, or nothing is left to release. -/
  ended : (∃ n p, s'.pin? n = some p ∧ s'.index.sealedEpoch = some p.pin.epoch) ∨ s'.index.Unparked
  /-- A batch whose own readers have left is released. -/
  released : ∀ e, s.index.sealedEpoch = some e → (∀ n p, s.pin? n = some p → p.pin.epoch ≠ e) →
    (∀ x ∈ s.index.code.sealedEntries, x.id ∈ s'.index.code.freeSlots ∧
      tableOf x ∈ s'.index.host.books.filterMap Event.returned? ++
        s'.index.host.books.filterMap Event.dropped?) ∧
    ∀ x ∈ s.index.depth.sealedEntries, x.id ∈ s'.index.depth.freeSlots
  /-- A batch that has a reader waits, in this collection and in all acts while he is there. -/
  waiting : ∀ n p, s.pin? n = some p → s.index.sealedEpoch = some p.pin.epoch → s' = s ∧
    ∀ t q, Acts s t → t.writer = true → t.pin? n = some q →
      t.index.sealedEpoch = some p.pin.epoch ∧
        t.index.code.sealedEntries = s.index.code.sealedEntries ∧
        t.index.depth.sealedEntries = s.index.depth.sealedEntries
  code : SkipList.Unedited s.index.code s'.index.code
  depth : SkipList.Unedited s.index.depth s'.index.depth
  registry : s'.index.registry = s.index.registry
  generation : s'.index.gate.generation = s.index.gate.generation
  isOpen : s'.index.gate.isOpen = s.index.gate.isOpen
  current : ∀ p, s'.index.isCurrent p = s.index.isCurrent p
  /-- Whoever is pinned sees the same. -/
  snapshots : ∀ cs, (∀ c ∈ cs, ∃ n command, c = .pin n command) → s'.answers cs = s.answers cs
  /-- Whoever else looks something up is told the same, unless he would have been turned away. -/
  lookups : ∀ cs, (∀ c ∈ cs, c.Looks) → s.Admits cs → s'.answers cs = s.answers cs

/-- Every collection comes to its end, releases all that no reader is in the way of, and is not
noticed by readers but for the room it may make for them. -/
theorem collection_exhaustive (hacts : Acts (start settings allocator) s)
    (hwriter : s.writer = true) (keep : Option SlotId) :
    Collects keep s { s with index := (s.index.collectKeeping keep).2 } := by
  obtain ⟨sc, hreached⟩ := acts_reached settings allocator hacts
  have hsound := hreached.leads.sound
  have hindex := hsound.index
  have ho := hsound.attended hwriter
  obtain ⟨es, released, w, hlead, hcol, -⟩ := Index.collectKeeping_spec s.index keep hindex ho
  have hafter := Leads.write hsound hwriter hlead
  have hmirror := collect_mirrors hsound hwriter keep
  have hsettled' := hreached.settled.setIndex hwriter (s.index.collectKeeping keep).2
    { sc with view := w }
  have hanswers : ∀ cs, (∀ c ∈ cs, c.Looks) → s.Admits cs →
      answers { s with index := (s.index.collectKeeping keep).2 } cs = s.answers cs := by
    intro cs hlook hin
    exact hmirror.answers_eq hsound hafter.sound hreached.settled hsettled' hlook hin
  refine ⟨fun n ix hrounds => hrounds.bound, s.index.collectKeeping_rounds keep, ?_, ?_, ?_,
    hmirror.code, hmirror.depth, ?_, ?_, ?_, hmirror.current, ?_, hanswers⟩
  · rcases hcol.ended with ⟨e, hsealed, hreaders⟩ | hnothing
    · obtain ⟨n, p, hp, rfl⟩ := (hafter.sound.reading_iff e).mp hreaders
      exact Or.inl ⟨n, p, hp, hlead.sound.sealedEpoch.trans hsealed⟩
    · exact Or.inr (hlead.sound.unparked_iff.mpr hnothing)
  · intro e hsealed hleft
    have hdrained : sc.view.gate.readers e = 0 := by
      by_contra hreaders
      obtain ⟨n, p, hp, hepoch⟩ := (hsound.reading_iff e).mp hreaders
      exact hleft n p hp hepoch
    rw [hindex.code.sealedEntries_eq, hindex.depth.sealedEntries_eq]
    exact Index.collectKeeping_releases hindex ho hsealed hdrained keep
  · intro n p hp hsealed
    constructor
    · have hlive := (hsound.reading_iff p.pin.epoch).mpr ⟨n, p, hp, rfl⟩
      have hundrained : ¬ s.index.gate.hasDrained p.pin.epoch = true := by
        rw [hindex.gate.hasDrained_eq, decide_eq_true_iff]
        exact hlive
      rw [Index.collectKeeping_blocked keep hsealed hundrained]
    · intro t q hlater hwriter' hq
      exact sealed_waits hsound hreached.settled hlater hwriter' hp hq hsealed
  · rw [hlead.sound.registry_eq, hindex.registry_eq]
    exact View.registry_congr hcol.codeLinked hcol.depthLinked
  · rw [← UInt64.toNat_inj, hlead.sound.gate.generation_eq, hindex.gate.generation_eq]
    exact hcol.generation
  · rw [hlead.sound.gate.isOpen_eq, hindex.gate.isOpen_eq]
    exact hlead.sound.closed.trans hindex.closed.symm
  · intro cs hpins
    refine hanswers cs ?_ (admits_of_pins hpins)
    intro c hc
    obtain ⟨n, command, rfl⟩ := hpins c hc
    trivial

/-- A batch whose only reader has left, and another one behind it, are released at once. -/
theorem deserted_collected :
    let s' : Session := { deserted with index := deserted.index.collect }
    deserted.index.sealedEpoch = some 0 ∧ deserted.index.code.hasRetired = true ∧
      s'.index.sealedEpoch = none ∧ Collects none deserted s' := by
  intro s'
  have hcollects : Collects none deserted s' :=
    collection_exhaustive (run_acts (start {} (.rationed (some 1) [] 16384)) _) (by decide +kernel)
      none
  refine ⟨by decide +kernel, by decide +kernel, ?_, hcollects⟩
  show deserted.index.collect.sealedEpoch = none
  decide +kernel

/-! ## Who is let in after all -/

/-- To forget a block of which nothing is known, and which is empty, is just to collect. -/
theorem step_freeBlock_unknown (hwriter : s.writer = true) (hnone : s.index.code.get? 0 = none) :
    (s.step (.writer (.freeBlock 0 0))).2 = { s with index := s.index.collect } := by
  have hunlink : s.index.unlinkCode 0 = (none, s.index) := by
    unfold Index.unlinkCode
    rw [hnone]
  rw [step_writer_eq hwriter]
  show { s with index := s.index.freeBlock 0 0 } = _
  unfold Index.freeBlock
  rw [hunlink]
  rfl

/-- A reader who was turned away is let in after a collection that began a new epoch, though
nothing was done but to collect. -/
theorem collection_lets_in :
    let s := (deserted.step (.reader 0 (.pinMany 65535))).2
    (s.step (.writer (.freeBlock 0 0))).2 = { s with index := s.index.collect } ∧
      (s.step (.reader 0 (.traceback 0))).1 = .failed .invalidated ∧
      ((s.step (.writer (.freeBlock 0 0))).2.step (.reader 0 (.traceback 0))).1 = .frames [] := by
  intro s
  obtain ⟨hwriter, hreader, hindex⟩ := deserted_crowded (s := s) rfl
  clear_value s
  have hnone : s.index.code.get? 0 = none := by
    rw [hindex]
    show deserted.index.code.get? 0 = none
    decide +kernel
  have hcollect := step_freeBlock_unknown hwriter hnone
  rw [hcollect, step_traceback_of_index hreader s.index.collect, step_traceback hreader, hindex]
  refine ⟨rfl, congrArg (replyOf · .frames) (?_ : _ = .error .invalidated),
    congrArg (replyOf · .frames) (?_ : _ = .ok [])⟩
  · decide +kernel
  · decide +kernel +zetaReduce

end Session

end JitIndex
