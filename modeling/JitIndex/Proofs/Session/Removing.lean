import JitIndex.Proofs.Session.Handling
import JitIndex.Proofs.Waiting

/-!
# Removing a code region

A removal unlinks its region, which takes one mutation, and then polls until
the frame table can be handed back. A poll is a collection, and fails only if
some pin is live (`poll_cases`). The pins are released once enough hints were
issued, and every round issues at least one, so the wait comes to its end:
`wait_works` carries, from round to round, that no more hints are missing than
there are polls left.
-/

namespace JitIndex

open SkipList (Layout Entry Laid ids)

/-- Among entries in different slots, a slot picks out one. -/
theorem SkipList.filter_id_eq {α : Type} {e : Entry α} : ∀ {es : List (Entry α)}, (ids es).Nodup →
    e ∈ es → es.filter (fun f => some f.id == some e.id) = [e]
  | f :: es, hnd, he => by
      obtain ⟨hnot, hnd'⟩ := List.nodup_cons.mp hnd
      rcases List.mem_cons.mp he with rfl | he
      · have hnone : es.filter (fun f => some f.id == some e.id) = [] := by
          rw [List.filter_eq_nil_iff]
          intro g hg hid
          have hid : g.id = e.id := by simpa using hid
          exact hnot (SkipList.mem_ids.mpr ⟨g, hg, hid⟩)
        rw [List.filter_cons, if_pos (by simp), hnone]
      · have hne : f.id ≠ e.id := fun hid => hnot (SkipList.mem_ids.mpr ⟨e, he, hid.symm⟩)
        rw [List.filter_cons, if_neg (by simpa using hne)]
        exact filter_id_eq hnd' he

theorem SkipList.Layout.mem_retired_unlink {α : Type} {y : Layout α} {key : Addr} {e : Entry α}
    (h : y.linked.find? (fun f => f.key == key) = some e) : e ∈ (y.unlink key).retired := by
  refine List.mem_append_left _ ?_
  rw [h]
  exact List.mem_singleton_self e

/-- What is parked in the code list until its readers have left. -/
def View.parked (v : View) : List (Entry CodeRecord) := v.code.retired ++ v.code.sealed

namespace Index

variable {ix : Index} {v w : View} {es : List Event} {released : List (Entry CodeRecord)}
  {keep : Option SlotId}

/-- A collection only takes entries away. -/
theorem Collected.entries_perm (h : Collected keep v es released w) (hv : v.code.pending = [])
    (hw : w.code.pending = []) : (released ++ w.code.entries).Perm v.code.entries := by
  have hparked := h.parked
  rw [List.perm_iff_count] at hparked ⊢
  intro e
  have he := hparked e
  simp only [Layout.entries, hv, hw, h.codeLinked, h.codeOrphans, List.count_append] at he ⊢
  omega

/-- A poll yields the frame table of the region that was unlinked, which is then no longer there, or
else something is sealed that has readers. -/
theorem pollRemoval_cases (h : Sound ix v) (ho : v.Orderly) {e : Entry CodeRecord}
    (he : e ∈ v.parked) : ∃ es w, Leads ix v es (ix.pollRemoval e.id).2 w ∧
      w.registry = v.registry ∧
      ((ix.pollRemoval e.id).1 = none ∧ Work es 0 [] [] ∧ e ∈ w.parked ∧
          (∃ epoch, w.sealedEpoch = some epoch ∧ w.gate.readers epoch ≠ 0) ∨
        (ix.pollRemoval e.id).1 = some e.payload.owned ∧ Work es 0 [] [e.payload.owned] ∧
          e ∉ w.code.entries) := by
  obtain ⟨es, released, w, hlead, hcol, hanswer⟩ := collectKeeping_spec ix (some e.id) h ho
  refine ⟨es, w, hlead, View.registry_congr hcol.codeLinked hcol.depthLinked, ?_⟩
  have hentries := hcol.entries_perm h.codeReady hlead.sound.codeReady
  have hnd : (ids released ++ ids w.code.entries).Nodup := by
    rw [← SkipList.ids_append]
    exact (hentries.map Entry.id).nodup_iff.mpr h.code.nodup_ids
  obtain ⟨hndReleased, -, hapart⟩ := List.nodup_append.mp hnd
  have hdisposed := disposal_work (some e.id) released
  rcases List.mem_append.mp (hcol.parked.mem_iff.mpr he) with hreleased | hparked
  · right
    rw [SkipList.filter_id_eq hndReleased hreleased] at hanswer hdisposed
    refine ⟨hanswer, hdisposed.of_perm (Nat.le_refl _) hcol.events, fun hmem => ?_⟩
    exact hapart _ (List.mem_map_of_mem hreleased) _ (List.mem_map_of_mem hmem) rfl
  · left
    have hthere : e ∈ w.code.entries := by
      rcases List.mem_append.mp hparked with hretired | hsealed
      · exact w.code.retired_sublist.subset hretired
      · exact w.code.sealed_sublist.subset hsealed
    have hkept : released.filter (fun f => some f.id == some e.id) = [] := by
      rw [List.filter_eq_nil_iff]
      intro f hf hid
      have hid : f.id = e.id := by simpa using hid
      exact hapart _ (List.mem_map_of_mem hf) _ (List.mem_map_of_mem hthere) hid
    rw [hkept] at hanswer hdisposed
    refine ⟨hanswer, hdisposed.of_perm (Nat.zero_le _) hcol.events, hparked, ?_⟩
    rcases hcol.ended with hblocked | ⟨-, ⟨hretired, hsealed⟩, -⟩
    · exact hblocked
    · rw [hretired, hsealed] at hparked
      cases hparked

end Index

namespace Session

variable {s s' s'' : Session} {sc sc' sc'' : Scene} {e : Entry CodeRecord}

theorem anyPin_of_pinned (h : Sound s sc) (epoch : Epoch) (hpinned : sc.pinned epoch ≠ 0) :
    s.anyPin = true := by
  rw [← Bool.not_eq_false, anyPin_eq_false h]
  intro hnone
  obtain ⟨p, hp, hlive⟩ := List.countP_pos_iff.mp (Nat.pos_of_ne_zero hpinned)
  rw [hnone p hp] at hlive
  cases hlive

/-- A poll yields the frame table of the region that was unlinked, or else a pin is live. -/
theorem poll_cases (h : Sound s sc) (hwriter : s.writer = true) (he : e ∈ sc.view.parked) :
    (∃ ix v, s.index.pollRemoval e.id = (none, ix) ∧ s.index.Works sc.view 0 [] ix v ∧
      v.registry = sc.view.registry ∧ e ∈ v.parked ∧ s.anyPin = true) ∨
    ∃ es ix v, s.index.pollRemoval e.id = (some e.payload.owned, ix) ∧
      s.index.Leads sc.view es ix v ∧ Work es 0 [] [e.payload.owned] ∧
      v.registry = sc.view.registry := by
  obtain ⟨es, v, hlead, hregistry, hcases⟩ :=
    Index.pollRemoval_cases h.index (h.attended hwriter) he
  rcases hcases with ⟨hnone, hwork, hparked, epoch, -, hreaders⟩ | ⟨hsome, hwork, -⟩
  · -- the readers that are in the way were there before
    have hpinned : sc.pinned epoch ≠ 0 := by
      rwa [← h.orderly.readers, ← hlead.moves.readers_eq]
    exact Or.inl ⟨_, v, Prod.ext hnone rfl, ⟨es, hlead, hwork⟩, hregistry, hparked,
      anyPin_of_pinned h epoch hpinned⟩
  · exact Or.inr ⟨es, _, v, Prod.ext hsome rfl, hlead, hwork, hregistry⟩

theorem Works.note {n : Nat} {ts : List FrameTable} (h : Works s sc n ts s' sc')
    (hwriter : s'.writer = true) {ev : Event} (hev : ev.channel ≠ .books) :
    Works s sc n ts { s' with index := s'.index.note ev } sc' := by
  have hnote := Works.write h.sound hwriter ((Index.Works.refl h.sound.index).note hev)
  simpa using h.trans hnote

/-- A writer that waits: what it waits for is parked, the readers leave before all polls are used
up, and what does not wait for it stays as it is. -/
structure Waits (s : Session) (sc : Scene) (e : Entry CodeRecord) (releaseAfter : Nat) (w : Wait)
    (polls : Nat) : Prop where
  sound : Sound s sc
  writer : s.writer = true
  parked : e ∈ sc.view.parked
  polling : 1 ≤ polls
  hints : s.anyPin = true → w.hints < releaseAfter ∧ releaseAfter + 1 ≤ w.hints + polls

/-- A session that is as another one to everyone but its readers and its memory. -/
structure Resumes (s s' : Session) (sc sc' : Scene) : Prop where
  writer : s'.writer = s.writer
  disposed : s'.disposed = s.disposed
  pins : s'.pins.size = s.pins.size
  registry : sc'.view.registry = sc.view.registry

theorem Resumes.trans (h : Resumes s s' sc sc') (h' : Resumes s' s'' sc' sc'') :
    Resumes s s'' sc sc'' :=
  ⟨h'.writer.trans h.writer, h'.disposed.trans h.disposed, h'.pins.trans h.pins,
    h'.registry.trans h.registry⟩

theorem dropPins_eq (hwriter : s.writer = true) : s.dropPins = s.unpinAll := settle_eq hwriter

theorem round_waits {releaseAfter polls : Nat} {w : Wait} (warnAfter : UInt32)
    (h : Waits s sc e releaseAfter w (polls + 1)) (hpin : s.anyPin = true) :
    ∃ w' s' sc', (removal e.id releaseAfter).round warnAfter w s = (w', s') ∧
      Works s sc 0 [] s' sc' ∧ Resumes s s' sc sc' ∧ Waits s' sc' e releaseAfter w' polls := by
  obtain ⟨hlt, hle⟩ := h.hints hpin
  have hmore := w.hints_lt_pause
  -- the readers leave in this round, or there is another one
  obtain ⟨s₁, sc₁, hpass, hwork, hres, hwaits⟩ : ∃ s₁ sc₁,
      (removal e.id releaseAfter).pass w.hints w.pause.hints s = s₁ ∧ Works s sc 0 [] s₁ sc₁ ∧
      Resumes s s₁ sc sc₁ ∧ Waits s₁ sc₁ e releaseAfter w.pause polls := by
    by_cases hleave : releaseAfter ≤ w.pause.hints
    · obtain ⟨sc', hwork, hcode, hdepth, -⟩ := unpinAll_works h.sound
      refine ⟨s.unpinAll, sc', ?_, hwork, ⟨rfl, rfl, by simp [unpinAll],
        registry_of_layouts hcode hdepth⟩, hwork.sound, h.writer, ?_, by omega, ?_⟩
      · show (if _ then s.dropPins else s) = _
        rw [if_pos ⟨hlt, hleave⟩, dropPins_eq h.writer]
      · unfold View.parked
        rw [hcode]
        exact h.parked
      · have hnone : s.unpinAll.anyPin = false := by simp [anyPin, unpinAll]
        exact fun hany => absurd (hnone.symm.trans hany) Bool.false_ne_true
    · refine ⟨s, sc, ?_, .refl h.sound, ⟨rfl, rfl, rfl, rfl⟩, h.sound, h.writer, h.parked, by omega,
        fun _ => by omega⟩
      show (if _ then s.dropPins else s) = s
      rw [if_neg fun hboth => hleave hboth.2]
  unfold Waitable.round
  dsimp only
  rw [hpass]
  split
  · have hlog : (Event.waiting w.pause.rounds).channel ≠ .books := by rintro ⟨⟩
    have hnoted := hwork.note hwaits.writer hlog
    exact ⟨_, _, sc₁, rfl, hnoted, ⟨hres.writer, hres.disposed, hres.pins, hres.registry⟩,
      hnoted.sound, hwaits.writer, hwaits.parked, hwaits.polling, hwaits.hints⟩
  · exact ⟨_, s₁, sc₁, rfl, hwork, hres, hwaits⟩

theorem wait_works (warnAfter : UInt32) {releaseAfter : Nat} : ∀ {polls : Nat} {w : Wait}
    {s : Session} {sc : Scene}, Waits s sc e releaseAfter w polls →
    ∃ w' s' sc' es, (removal e.id releaseAfter).await warnAfter polls w s =
        (some e.payload.owned, w', s') ∧ Leads s sc es s' sc' ∧
      Work es 0 [] [e.payload.owned] ∧ Resumes s s' sc sc'
  | 0, w, s, sc, h => absurd h.polling (Nat.not_succ_le_zero 0)
  | polls + 1, w, s, sc, h => by
      rcases poll_cases h.sound h.writer h.parked with
        ⟨ix, v, hpoll, hwork, hreg, hparked, hpin⟩ | ⟨es, ix, v, hpoll, hlead, hwork, hreg⟩
      · unfold Waitable.await
        have hpolled := Works.write h.sound h.writer hwork
        have hwaiting : Waits { s with index := ix } { sc with view := v } e releaseAfter w
            (polls + 1) := ⟨hpolled.sound, h.writer, hparked, h.polling, h.hints⟩
        obtain ⟨w', s', sc', hround, hwork', hres, hwaits⟩ := round_waits warnAfter hwaiting hpin
        obtain ⟨w'', s'', sc'', fs, hawait, hlead, hdone, hres'⟩ := wait_works warnAfter hwaits
        obtain ⟨es, hlead', hwork''⟩ := hpolled.trans hwork'
        refine ⟨w'', s'', sc'', es ++ fs, ?_, hlead'.trans hlead, hwork''.append hdone,
          Resumes.trans ⟨hres.writer, hres.disposed, hres.pins, hres.registry.trans hreg⟩ hres'⟩
        rw [show (removal e.id releaseAfter).poll s = (none, { s with index := ix }) by
          simp only [removal, hpoll]]
        simp only [hround]
        exact hawait
      · refine ⟨w, { s with index := ix }, _, es, ?_, .write h.sound h.writer hlead, hwork,
          rfl, rfl, rfl, hreg⟩
        refine Waitable.await_of_poll ?_ warnAfter polls w
        simp only [removal, hpoll]

/-- A removal takes out the region that starts at the address, and hands its table back; if there
is none, or if readers would never leave, nothing happens. -/
theorem removeCode_works (h : Sound s sc) (hwriter : s.writer = true) (start : Addr)
    (releaseAfter : Option Nat) :
    (s.index.code.get? start = none ∧ s.removeCode start releaseAfter = (.notRegistered, s)) ∨
    ∃ e, s.index.code.get? start = some e ∧
      (((s.anyPin = true ∧ releaseAfter = none) ∧
        s.removeCode start releaseAfter = (.wouldBlock, s)) ∨
      ¬ (s.anyPin = true ∧ releaseAfter = none) ∧
        ∃ hints s' sc' es, s.removeCode start releaseAfter =
            (.removed e.payload.owned.table hints, s') ∧
          Leads s sc es s' sc' ∧ Work es 1 [] [e.payload.owned] ∧ s'.writer = true ∧
          s'.disposed = s.disposed ∧ s'.pins.size = s.pins.size ∧
          sc'.view.registry = sc.view.registry.removeCode start) := by
  unfold removeCode
  have hget := h.index.code.get?_eq start
  rcases Index.unlinkCode_spec h.index start with ⟨hnone, -⟩ | ⟨e, ix, hsome, hunlink, hlead⟩
  · rw [hnone] at hget
    refine Or.inl ⟨hget, ?_⟩
    rw [hget]
    rfl
  · rw [hsome] at hget
    refine Or.inr ⟨e, hget, ?_⟩
    rw [hget]
    by_cases hblocked : s.anyPin = true ∧ releaseAfter = none
    · refine Or.inl ⟨hblocked, ?_⟩
      rw [hblocked.1, hblocked.2]
      rfl
    · refine Or.inr ⟨hblocked, ?_⟩
      have hfree : ¬ ((s.anyPin && releaseAfter.isNone) = true) := by
        simpa using hblocked
      rw [if_neg (by simp), if_neg hfree]
      have hunlinked := Leads.write h hwriter hlead
      have hparked : e ∈ (sc.view.mutated 0 (sc.view.code.unlink start) sc.view.depth).parked :=
        List.mem_append_left _ (Layout.mem_retired_unlink hsome)
      have hwaits : Waits { s with index := ix }
          { sc with view := sc.view.mutated 0 (sc.view.code.unlink start) sc.view.depth } e
          ((releaseAfter.map (max 1)).getD 0) {}
          ((releaseAfter.map (max 1)).getD 0 + 1) := by
        refine ⟨hunlinked.sound, hwriter, hparked, Nat.succ_pos _, fun hpin => ⟨?_, by simp⟩⟩
        cases releaseAfter with
        | none => exact absurd ⟨hpin, rfl⟩ hblocked
        | some n => exact Nat.lt_of_lt_of_le Nat.zero_lt_one (Nat.le_max_left 1 n)
      obtain ⟨w, s', sc', es, hawait, hlead', hwork, hres⟩ :=
        wait_works ix.settings.warnAfter hwaits
      simp only [hunlink, hawait]
      have hnoted := Leads.write hlead'.sound (hres.writer.trans hwriter)
        ((Index.Leads.refl hlead'.sound.index).note (e := .codeRemoved start) (by rintro ⟨⟩))
      refine ⟨w.hints, _, sc', _, rfl, (hunlinked.trans hlead').trans hnoted, ?_,
        hres.writer.trans hwriter, hres.disposed, hres.pins, hres.registry.trans ?_⟩
      · exact ((show Work [.mutationBegun] 1 [] [] from ⟨rfl, rfl, rfl⟩).append hwork).append .nil
      · exact View.registry_removeCode rfl rfl

end Session

end JitIndex
