import JitIndex.Proofs.Blocks
import JitIndex.Proofs.Collection
import JitIndex.Proofs.Session.History

/-!
# A frame table is handed back when no reader can have it

Whoever removes a code region is given its frame table back, and that is the
table of the region that was registered there last (`History`). He waits for
it until no reader can hold it: the first poll yields the table if there is no
pin at all, and nothing if there is one, whichever epoch it belongs to. A poll
that yields nothing leaves something sealed that has a reader, and as long as
he stays no poll will do better (`polled_stuck`).

What else is parked does not matter. An older batch may have to be released
before the region is even sealed, and the poll that does so may also release
other regions; it is the slot that tells which table to hand back.
-/

namespace JitIndex

open SkipList (Layout Entry Laid ids)

namespace Session

variable {settings : Settings} {allocator : Allocator} {s s' : Session} {sc : Scene} {a : Addr}
  {e : Entry CodeRecord}

theorem anyPin_iff : s.anyPin = true ↔ ∃ n p, s.pin? n = some p := by
  unfold anyPin
  rw [Array.any_eq_true']
  constructor
  · rintro ⟨q, hq, hlive⟩
    obtain ⟨p, rfl⟩ := Option.isSome_iff_exists.mp hlive
    obtain ⟨n, hn⟩ := Array.mem_iff_getElem?.mp hq
    exact ⟨n, p, Option.join_eq_some_iff.mpr hn⟩
  · rintro ⟨n, p, hp⟩
    exact ⟨some p, Array.mem_of_getElem? (Option.join_eq_some_iff.mp hp), rfl⟩

/-! ## Readers leave the code list alone -/

theorem takePins_code (count : Nat) : ∀ s : Session,
    (s.takePins count).index.code = s.index.code := by
  induction count with
  | zero => exact fun _ => rfl
  | succ count ih =>
      intro s
      refine (ih s.takePin.2).trans ?_
      unfold takePin Index.pin?
      cases s.index.gate.pin? <;> rfl

theorem step_code_of_reads (hwriter : s.writer = true) {c : Command} (hc : c.Reads) :
    (s.step c).2.index.code = s.index.code := by
  cases c with
  | reader n command =>
      rw [step_reader_eq]
      split
      · cases command with
        | traceback a =>
            show (s.index.traceback a).2.code = _
            rw [Index.traceback, Index.reading_snd]
        | depthAt a =>
            show (s.index.depthAt a).2.code = _
            rw [Index.depthAt, Index.reading_snd]
        | drop =>
            show (s.dropReader n).index.code = _
            rw [dropReader,
              settle_eq (s := { s with readers := s.readers.setIfInBounds n false }) hwriter]
        | pin =>
            have hone := takePins_code 1 s
            unfold stepReader
            dsimp only
            split <;> (rename_i htake; simpa [takePins, htake] using hone)
        | pinMany count => exact takePins_code count s
        | _ => rfl
      · rfl
  | pin n command =>
      rw [step_pin_eq]
      cases hp : s.pin? n with
      | none => rfl
      | some p =>
          have hdrop : (s.dropPin n).index.code = s.index.code := by
            rw [dropPin_eq hwriter hp]
            rfl
          cases command with
          | finish => exact hdrop
          | unpin => exact hdrop
          | _ => rfl
  | unpinAll =>
      show s.dropPins.index.code = _
      obtain ⟨-, hcode, -⟩ := foldl_release s.pins.toList s.index
      rw [Array.foldl_toList] at hcode
      rw [dropPins_eq hwriter]
      exact hcode
  | writer command =>
      rw [step_writer_eq hwriter]
      cases command with
      | newReader => rfl
      | settings => rfl
      | text => rfl
      | _ => exact hc.elim

/-- What may happen while the writer pauses. -/
def Pause : Session → Session → Prop :=
  Relation.ReflTransGen fun s s' => ∃ c : Command, c.Reads ∧ s' = (s.step c).2

theorem Pause.acts (h : Pause s s') : Acts s s' := by
  induction h with
  | refl => exact .refl
  | tail _ hstep ih =>
      obtain ⟨c, -, rfl⟩ := hstep
      exact ih.trans (step_acts _ c)

theorem Pause.code_eq (h : Pause s s') (hwriter : s.writer = true) :
    s'.writer = true ∧ s'.index.code = s.index.code := by
  induction h with
  | refl => exact ⟨hwriter, rfl⟩
  | @tail t _ _ hstep ih =>
      obtain ⟨c, hc, rfl⟩ := hstep
      exact ⟨(t.step_writer_of_reads hc).trans ih.1, (step_code_of_reads ih.1 hc).trans ih.2⟩

/-! ## Polls -/

/-- The session after a region was unlinked, and before anybody asked for its table. -/
def unlinked (s : Session) (a : Addr) : Session := { s with index := (s.index.unlinkCode a).2 }

/-- The session after a poll. -/
def polled (s : Session) (id : SlotId) : Session := { s with index := (s.index.pollRemoval id).2 }

/-- No poll yields anything or changes anything while all pins stay. -/
def Stuck (s : Session) (id : SlotId) : Prop :=
  ∀ t, Acts (s.polled id) t → t.writer = true → (∀ n, (s.pin? n).isSome → (t.pin? n).isSome) →
    t.index.pollRemoval id = (none, t.index)

/-- What a poll comes to for a region that is parked. -/
theorem polled_cases (h : Reached settings allocator s sc) (hwriter : s.writer = true)
    (he : e ∈ s.index.code.parkedEntries) :
    ((s.index.pollRemoval e.id).1 = some e.payload.owned ∧
      e ∉ (s.polled e.id).index.code.parkedEntries) ∨
    (s.index.pollRemoval e.id).1 = none ∧ e ∈ (s.polled e.id).index.code.parkedEntries ∧
      s.anyPin = true ∧ s.Stuck e.id := by
  have hsound := h.leads.sound
  rw [h.parkedEntries_eq hwriter] at he
  obtain ⟨es, w, hlead, -, hcases⟩ :=
    Index.pollRemoval_cases hsound.index (hsound.attended hwriter) he
  have hafter : Leads s sc es (s.polled e.id) { sc with view := w } := .write hsound hwriter hlead
  have hsettled : Settled (s.polled e.id) { sc with view := w } := h.settled.setIndex hwriter _ _
  have hparked := ((h.leads.trans hafter).reached hsettled).parkedEntries_eq hwriter
  rw [hparked]
  rcases hcases with ⟨hnone, -, hthere, epoch, hsealed, hreaders⟩ | ⟨hsome, -, hgone⟩
  · right
    obtain ⟨n, p, hp, rfl⟩ := (hafter.sound.reading_iff epoch).mp hreaders
    refine ⟨hnone, hthere, anyPin_iff.mpr ⟨n, p, hp⟩, fun t hacts hwriter' hstay => ?_⟩
    -- what is sealed waits for a reader who has not left
    obtain ⟨p', hp'⟩ := Option.isSome_iff_exists.mp (hstay n (Option.isSome_iff_exists.mpr ⟨p, hp⟩))
    obtain ⟨hsealed', -, -⟩ := sealed_waits hafter.sound hsettled hacts hwriter' hp hp'
      (hlead.sound.sealedEpoch.trans hsealed)
    obtain ⟨fs, sc', hlead', -⟩ := acts_lead hafter.sound hsettled hacts
    have hlive : sc'.view.gate.readers p.pin.epoch ≠ 0 := by
      obtain ⟨q, hq, hpin⟩ := hlead'.pin_before hafter.sound (lt_size_of_pin hp) hp'
      cases hp.symm.trans hq
      exact (hlead'.sound.reading_iff _).mpr ⟨n, p', hp', congrArg Gate.Pin.epoch hpin.symm⟩
    refine Index.collectKeeping_blocked (some e.id) hsealed' ?_
    rw [hlead'.sound.index.gate.hasDrained_eq, decide_eq_true_iff]
    exact hlive
  · left
    refine ⟨hsome, fun hthere => hgone ?_⟩
    rcases List.mem_append.mp hthere with hretired | hsealed
    · exact w.code.retired_sublist.subset hretired
    · exact w.code.sealed_sublist.subset hsealed

/-- A region that is retired is guarded by every pin, so a poll yields its table exactly if there is
none. -/
theorem pollRemoval_retired (h : Reached settings allocator s sc) (hwriter : s.writer = true)
    (he : e ∈ s.index.code.retiredEntries) :
    (s.index.pollRemoval e.id).1 = if s.anyPin then none else some e.payload.owned := by
  have hsound := h.leads.sound
  rw [hsound.index.code.retiredEntries_eq] at he
  obtain ⟨es, w, hlead, -, hcases⟩ := Index.pollRemoval_cases hsound.index
    (hsound.attended hwriter) (List.mem_append_left _ he)
  have hafter : Leads s sc es (s.polled e.id) { sc with view := w } := .write hsound hwriter hlead
  rcases hcases with ⟨hnone, -, -, epoch, -, hreaders⟩ | ⟨hsome, -, hgone⟩
  · obtain ⟨n, p, hp, -⟩ := (hafter.sound.reading_iff epoch).mp hreaders
    have hany : s.anyPin = true := anyPin_iff.mpr ⟨n, p, hp⟩
    rw [hnone, hany]
    rfl
  · have hno : s.anyPin = false := by
      rw [← Bool.not_eq_true, anyPin_iff]
      rintro ⟨n, p, hp⟩
      obtain ⟨hguards, -⟩ := hafter.moves.guard hsound.orderly (hsound.pin_live hp)
        (hafter.sound.pin_live (n := n) (p := p) hp)
      obtain ⟨hguarded, -⟩ := hguards e (Or.inl (List.mem_append_right _ he))
      exact hgone hguarded.mem_entries
    rw [hsome, hno]
    rfl

/-! ## Handing back -/

/-- How a table is handed back for the region `e` that is registered at an address. -/
structure HandsBack (settings : Settings) (allocator : Allocator) (s : Session) (a : Addr)
    (e : Entry CodeRecord) : Prop where
  /-- The region is taken out, in one mutation, and waits for its readers. -/
  unlinks : (s.index.unlinkCode a).1 = some e.id ∧
    (s.unlinked a).index.registry = s.index.registry.removeCode a ∧
    (s.unlinked a).index.host.books = s.index.host.books ++ [.mutationBegun] ∧
    e ∈ (s.unlinked a).index.code.retiredEntries
  /-- The first poll yields the table exactly if there is no pin when it comes. -/
  first : ∀ t, Pause (s.unlinked a) t →
    (t.index.pollRemoval e.id).1 = if t.anyPin then none else some e.payload.owned
  /-- Any poll yields the table, or else nothing because of pins that stay in the way. -/
  polls : ∀ t, Acts (s.unlinked a) t → t.writer = true → e ∈ t.index.code.parkedEntries →
    ((t.index.pollRemoval e.id).1 = some e.payload.owned ∧
      e ∉ (t.polled e.id).index.code.parkedEntries) ∨
    (t.index.pollRemoval e.id).1 = none ∧ e ∈ (t.polled e.id).index.code.parkedEntries ∧
      t.anyPin = true ∧ t.Stuck e.id
  /-- Whoever removes the region is given the table, unless he would wait for ever, and need not
  wait exactly if there is no pin. -/
  reply : ∀ releaseAfter,
    if s.anyPin = true ∧ releaseAfter = none then
      s.step (.writer (.removeCode a releaseAfter)) = (.wouldBlock, s)
    else ∃ hints, (s.step (.writer (.removeCode a releaseAfter))).1 =
        .removed e.payload.owned.table hints ∧ (hints = 0 ↔ s.anyPin = false)
  /-- It is the table of the region that was registered there last. -/
  latest : (∃ rs, History settings allocator rs s) ∧ ∀ rs, History settings allocator rs s →
    rs.find? (fun r => r.start == a) = some ⟨⟨a, e.payload.size⟩, e.payload.owned.table⟩

theorem removeCode_hints {id : SlotId} {ix : Index} {releaseAfter : Option Nat} {table : FrameTable}
    {hints : Nat} (hunlink : s.index.unlinkCode a = (some id, ix))
    (hreply : (s.removeCode a releaseAfter).1 = .removed table hints) :
    hints = 0 ↔ (ix.pollRemoval id).1.isSome = true := by
  have hpoll := (removal id ((releaseAfter.map (max 1)).getD 0)).await_hints_eq
    ix.settings.warnAfter ((releaseAfter.map (max 1)).getD 0) {} { s with index := ix }
  unfold removeCode at hreply
  split at hreply
  · cases hreply
  · split at hreply
    · cases hreply
    · rw [hunlink] at hreply
      dsimp only at hreply
      split at hreply
      · cases hreply
      · rename_i owned w t hawait
        rw [hawait] at hpoll
        cases hreply
        exact hpoll

/-- A region is unlinked in one mutation. -/
theorem unlinkCode_unlinks (h : Sound s sc) (hwriter : s.writer = true)
    (hget : s.index.code.get? a = some e) :
    s.index.unlinkCode a = (some e.id, (s.unlinked a).index) ∧
      (s.unlinked a).index.registry = s.index.registry.removeCode a ∧
      (s.unlinked a).index.host.books = s.index.host.books ++ [.mutationBegun] ∧
      e ∈ (s.unlinked a).index.code.retiredEntries := by
  rw [h.index.code.get?_eq] at hget
  rcases Index.unlinkCode_spec h.index a with ⟨hnone, -⟩ | ⟨e', ix, hsome, hunlink, hlead⟩
  · cases hget.symm.trans hnone
  · cases hget.symm.trans hsome
    have hafter : Leads s sc [.mutationBegun] (s.unlinked a)
        { sc with view := sc.view.mutated 0 (sc.view.code.unlink a) sc.view.depth } := by
      unfold unlinked
      rw [hunlink]
      exact .write h hwriter hlead
    refine ⟨Prod.ext (by rw [hunlink]) rfl, ?_, hafter.books, ?_⟩
    · rw [hafter.sound.index.registry_eq, h.index.registry_eq]
      exact View.registry_removeCode rfl rfl
    · rw [hafter.sound.index.code.retiredEntries_eq]
      exact Layout.mem_retired_unlink hsome

theorem removeCode_reply (h : Reached settings allocator s sc) (hwriter : s.writer = true)
    (hget : s.index.code.get? a = some e)
    (hfirst : ((s.unlinked a).index.pollRemoval e.id).1 =
      if s.anyPin then none else some e.payload.owned) (releaseAfter : Option Nat) :
    if s.anyPin = true ∧ releaseAfter = none then
      s.removeCode a releaseAfter = (.wouldBlock, s)
    else ∃ hints, (s.removeCode a releaseAfter).1 = .removed e.payload.owned.table hints ∧
      (hints = 0 ↔ s.anyPin = false) := by
  have hsound := h.leads.sound
  rcases removeCode_works hsound hwriter a releaseAfter with
    ⟨hnone, -⟩ | ⟨e', hsome, ⟨hblocked, hrun⟩ | ⟨hfree, hints, t, -, -, hrun, -⟩⟩
  · cases hget.symm.trans hnone
  · rw [if_pos hblocked]
    exact hrun
  · cases hget.symm.trans hsome
    rw [if_neg hfree]
    have hreply := congrArg Prod.fst hrun
    refine ⟨hints, hreply, ?_⟩
    rw [removeCode_hints (unlinkCode_unlinks hsound hwriter hget).1 hreply, hfirst]
    cases s.anyPin <;> simp

/-- A removal at an address where no region starts does nothing. One at an address where there is
a region unlinks it, and yields its table as soon as no reader can have it, and no sooner. -/
theorem removal_hands_back (hacts : Acts (start settings allocator) s) (hwriter : s.writer = true)
    (a : Addr) :
    match s.index.code.get? a with
    | none => s.index.unlinkCode a = (none, s.index) ∧
        ∀ releaseAfter, s.step (.writer (.removeCode a releaseAfter)) = (.notRegistered, s)
    | some e => HandsBack settings allocator s a e := by
  obtain ⟨sc, hreached⟩ := acts_reached settings allocator hacts
  have hstep : ∀ releaseAfter, s.step (.writer (.removeCode a releaseAfter)) =
      s.removeCode a releaseAfter := fun releaseAfter => step_writer_eq hwriter _
  split
  · rename_i hnone
    refine ⟨?_, fun releaseAfter => ?_⟩
    · unfold Index.unlinkCode
      rw [hnone]
    · rw [hstep, removeCode, hnone]
      rfl
  · rename_i e hget
    obtain ⟨hunlink, hregistry, hbooks, hretired⟩ :=
      unlinkCode_unlinks hreached.leads.sound hwriter hget
    have hacts' : Acts (start settings allocator) (s.unlinked a) := hacts.tail (.unlink hwriter a)
    have hfirst : ∀ t, Pause (s.unlinked a) t →
        (t.index.pollRemoval e.id).1 = if t.anyPin then none else some e.payload.owned := by
      intro t hpause
      obtain ⟨sc', hreached'⟩ := acts_reached settings allocator (hacts'.trans hpause.acts)
      obtain ⟨hwriter', hcode⟩ := hpause.code_eq hwriter
      exact pollRemoval_retired hreached' hwriter' (hcode ▸ hretired)
    refine ⟨⟨congrArg Prod.fst hunlink, hregistry, hbooks, hretired⟩, hfirst, ?_, ?_,
      acts_history hacts, fun rs hhistory => ?_⟩
    · intro t hlater hwriter' hparked
      obtain ⟨sc', hreached'⟩ := acts_reached settings allocator (hacts'.trans hlater)
      exact polled_cases hreached' hwriter' hparked
    · intro releaseAfter
      rw [hstep]
      exact removeCode_reply hreached hwriter hget (hfirst _ .refl) releaseAfter
    · have hcode : s.index.registry.code a = some (e.payload.size, e.payload.owned.table) :=
        congrArg (Option.map _) hget
      exact hhistory.latest hcode

/-- A region is removed while an older one, removed before it, still waits for a reader. -/
theorem handed_back_behind_older :
    let s := (start {} .generous).run [.writer (.addCode ⟨⟨16, 8⟩, .ofDescriptors []⟩),
      .writer (.addCode ⟨⟨32, 8⟩, .ofDescriptors [⟨⟨1⟩, 0, 8, 4⟩]⟩), .reader 0 .pin,
      .writer (.freeBlock 16 24)]
    s.index.sealedEpoch = some 0 ∧ s.anyPin = true ∧
      ∃ e, s.index.code.get? 32 = some e ∧ HandsBack {} .generous s 32 e := by
  intro s
  obtain ⟨e, he⟩ : ∃ e, s.index.code.get? 32 = some e :=
    Option.isSome_iff_exists.mp (by decide +kernel)
  refine ⟨by decide +kernel, by decide +kernel, e, he, ?_⟩
  have hacts : Acts (start {} .generous) s := run_acts _ _
  have hback := removal_hands_back hacts (by decide +kernel) 32
  rw [he] at hback
  exact hback

end Session

end JitIndex
