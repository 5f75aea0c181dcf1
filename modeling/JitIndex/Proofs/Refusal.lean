import JitIndex.Proofs.Ownership
import JitIndex.Proofs.Session.Mirroring

/-!
# What a refusal leaves behind

A registration is refused when there is no slot for the region. By then the
index has been collected and, for a code region, the frame table has changed
hands; so the refusal drops the table, and the collection is all that is left
of the call (`Spared`). What was linked is linked, in the same order and at the
same heights, and no count, slot or draw was used up: a region that is
registered at the same address is still there, and the registration may be
tried again whenever there is room.

Readers cannot tell the index from the one before the call (`add_mirrors`), but
for one thing: the collection may have begun a new epoch, and then there is
room for a reader who would have been turned away (`refused_lets_in`).
-/

namespace JitIndex

open SkipList (Layout Entry Laid)

/-- The command that offers a region. -/
def Registration.command : Registration → Command
  | code region => .writer (.addCode region)
  | depth region => .writer (.addDepth region)

namespace Index

variable {ix : Index} {v : View}

/-! ## The moves of a refusal -/

/-- The moves that a refused registration is made up of. -/
theorem add_refused_leads (h : Sound ix v) (ho : v.Orderly) (r : Registration)
    (hnone : ¬ r.HasRoom ix.collect) : ∃ es released w, Collected none v es released w ∧
      Leads ix v es ix.collect w ∧
      Leads ix v (es ++ passage (r.tables ix.taken)) (ix.add r).2
        { w with taken := w.taken + (r.tables ix.taken).length } := by
  obtain ⟨es, released, w, hlead, hcol, -⟩ := collectKeeping_spec ix none h ho
  have hafter : Sound ix.collect w := hlead.sound
  have htaken : ix.collect.taken = ix.taken := ix.collect_kept.taken
  obtain ⟨host, herror, hbooks⟩ := ((add_cases hafter r).resolve_left fun hok => hnone hok.1).2
  rw [htaken] at herror hbooks
  have hmoves : View.Moves w (passage (r.tables ix.taken))
      { w with taken := w.taken + (r.tables ix.taken).length } := by
    cases r with
    | code region =>
        rw [h.taken, ← hcol.taken]
        exact .single (.refuse region.table)
    | depth region => exact .refl w
  refine ⟨es, released, w, hcol, hlead, hlead.trans ?_⟩
  rw [herror]
  exact ⟨hmoves, ⟨hafter.code, hafter.depth, hafter.codeReady, hafter.depthReady, hafter.gate,
    hafter.closed, hafter.sealedEpoch, congrArg (· + _) (htaken.symm.trans hafter.taken)⟩, hbooks,
    .of_core rfl fun _ => rfl, .of_core rfl fun _ => rfl⟩

/-! ## What a refusal leaves -/

/-- What a refused registration leaves of an index `ix`. -/
structure Spared (r : Registration) (ix ix' : Index) : Prop where
  /-- The collection, and the numbering and the journal, are all that the call had to do with. -/
  collected : ix' = { ix.collect with taken := ix'.taken, host := ix'.host }
  code : SkipList.Unedited ix.code ix'.code
  depth : SkipList.Unedited ix.depth ix'.depth
  registry : ix'.registry = ix.registry
  generation : ix'.gate.generation = ix.gate.generation
  isOpen : ix'.gate.isOpen = ix.gate.isOpen
  current : ∀ p, ix'.isCurrent p = ix.isCurrent p
  /-- The tables of the parked nodes that were released were dropped, and the one on offer too. -/
  released : ∃ released es, (released ++ ix'.code.parkedEntries).Perm ix.code.parkedEntries ∧
    ix'.host.books = ix.host.books ++ (es ++ passage (r.tables ix.taken)) ∧
    es.Perm (disposal none released)

theorem add_refused (h : Sound ix v) (ho : v.Orderly) (r : Registration)
    (hnone : ¬ r.HasRoom ix.collect) : Spared r ix (ix.add r).2 := by
  obtain ⟨es, released, w, hcol, hlead, hall⟩ := add_refused_leads h ho r hnone
  obtain ⟨host, herror, -⟩ := ((add_cases hlead.sound r).resolve_left fun hok => hnone hok.1).2
  have hcode : SkipList.Unedited ix.code (ix.add r).2.code :=
    h.code.unedited hall.sound.code hcol.codeLinked (by rw [herror]; exact ix.collect_kept.code)
  have hdepth : SkipList.Unedited ix.depth (ix.add r).2.depth :=
    h.depth.unedited hall.sound.depth hcol.depthLinked (by rw [herror]; exact ix.collect_kept.depth)
  have hopen : w.gate.isOpen = v.gate.isOpen := hall.sound.closed.trans h.closed.symm
  refine ⟨by rw [herror], hcode, hdepth, ?_, ?_, ?_, fun p => ?_, released, es, ?_, hall.books,
    hcol.events⟩
  · rw [hall.sound.registry_eq, h.registry_eq]
    exact View.registry_congr hcol.codeLinked hcol.depthLinked
  · rw [← UInt64.toNat_inj, hall.sound.gate.generation_eq, h.gate.generation_eq]
    exact hcol.generation
  · rw [hall.sound.gate.isOpen_eq, h.gate.isOpen_eq]
    exact hopen
  · exact Session.isCurrent_congr h.gate hall.sound.gate hopen hcol.generation p
  · rw [hall.sound.code.parkedEntries_eq, h.code.parkedEntries_eq]
    have hperm := hcol.parked.append_right v.code.orphans
    simp only [List.append_assoc] at hperm
    rw [← hcol.codeOrphans] at hperm ⊢
    exact hperm

end Index

namespace Session

/-- What a refused registration leaves of a session `s`. -/
structure Untouched (r : Registration) (s s' : Session) : Prop where
  index : Index.Spared r s.index s'.index
  handles : s' = { s with index := s'.index }
  /-- The table that was offered is not dropped a second time later on. -/
  dropped : ∀ t ∈ r.tables s.index.taken, ∀ s'', Acts s' s'' →
    (s''.index.host.books.filterMap Event.dropped?).count t = 1
  /-- Whoever looks something up is told the same, unless he would have been turned away. -/
  lookups : ∀ cs, (∀ c ∈ cs, c.Looks) → s.Admits cs → s'.answers cs = s.answers cs
  /-- The region may be offered again, and is accepted as soon as there is room. -/
  again : ∀ s'', Acts s' s'' → s''.writer = true →
    ((s''.step r.command).1 = .accepted ↔ r.HasRoom s''.index.collect) ∧
      (r.HasRoom s''.index → r.HasRoom s''.index.collect)

variable {settings : Settings} {allocator : Allocator} {s : Session} {sc : Scene}

/-! ## The call -/

theorem step_add (hwriter : s.writer = true) (r : Registration) :
    s.step r.command = (accepted (s.index.add r).1, { s with index := (s.index.add r).2 }) := by
  cases r with
  | code region => exact step_writer_eq hwriter (.addCode region)
  | depth region => exact step_writer_eq hwriter (.addDepth region)

theorem collect_sound (h : Sound s sc) (hwriter : s.writer = true) : ∃ w, s.index.collect.Sound w :=
  let ⟨_, _, w, hlead, _⟩ := Index.collectKeeping_spec s.index none h.index (h.attended hwriter)
  ⟨w, hlead.sound⟩

/-- A region is accepted exactly if there is room for it after the collection. -/
theorem step_add_iff (h : Sound s sc) (hwriter : s.writer = true) (r : Registration) :
    ((s.step r.command).1 = .accepted ↔ r.HasRoom s.index.collect) ∧
      (r.HasRoom s.index → r.HasRoom s.index.collect) := by
  constructor
  · rw [step_add hwriter, ← Index.add_ok_iff h.index (h.attended hwriter)]
    cases (s.index.add r).1 with
    | error f => exact iff_of_false (by rintro ⟨⟩) (by rintro ⟨⟩)
    | ok => exact iff_of_true rfl rfl
  · intro hroom
    cases r with
    | code region => exact s.index.collect_kept.hasRoom_code hroom
    | depth region => exact s.index.collect_kept.hasRoom_depth hroom

/-! ## A refused registration -/

/-- Readers find the index as it was, and where there was room for another one there is room: all
that they could notice is the collection. -/
theorem add_mirrors (h : Sound s sc) (hwriter : s.writer = true) (r : Registration)
    (hnone : ¬ r.HasRoom s.index.collect) : Mirrors s { s with index := (s.index.add r).2 } := by
  obtain ⟨w, hcollect⟩ := collect_sound h hwriter
  obtain ⟨host, herror, -⟩ := ((Index.add_cases hcollect r).resolve_left fun hok => hnone hok.1).2
  have hmirror : Mirrors s { s with index := s.index.collect } := collect_mirrors h hwriter none
  rw [herror]
  exact ⟨hmirror.code, hmirror.depth, hmirror.current, hwriter, hwriter, rfl, hmirror.pins⟩

/-- A table that is dropped once is never dropped again. -/
theorem Reached.dropped_once (h : Reached settings allocator s sc) {t : OwnedTable}
    (ht : t ∈ s.index.host.books.filterMap Event.dropped?) :
    (s.index.host.books.filterMap Event.dropped?).count t = 1 := by
  have honce := h.accounted.once
  unfold places at honce
  exact List.count_eq_one_of_mem
    (((honce.of_append_right).of_append_right).of_append_right) ht

/-- A registration that is refused changes nothing, whatever the state, the region and the reason.
The collection has been made by then, and stays. -/
theorem refused_untouched (hacts : Acts (start settings allocator) s) (r : Registration)
    {f : Failure} (hrefused : (s.step r.command).1 = .failed f) :
    f = .allocation ∧ Untouched r s (s.step r.command).2 := by
  obtain ⟨sc, hreached⟩ := acts_reached settings allocator hacts
  have hsound := hreached.leads.sound
  have hacts' : Acts (start settings allocator) (s.step r.command).2 :=
    hacts.trans (step_acts s r.command)
  have hwriter : s.writer = true := by
    by_contra hgone
    have hreply : (s.step r.command).1 = .noWriter := by
      cases r <;> exact congrArg Prod.fst (if_neg hgone)
    cases hreply.symm.trans hrefused
  have ho := hsound.attended hwriter
  obtain ⟨w₀, hcollect⟩ := collect_sound hsound hwriter
  rw [step_add hwriter] at hrefused hacts' ⊢
  rcases Index.add_cases hcollect r with ⟨hroom, hok⟩ | ⟨hnone, host, herror, -⟩
  · rw [hok] at hrefused
    cases hrefused
  obtain ⟨es, released, w, hcol, hlead, hall⟩ := Index.add_refused_leads hsound.index ho r hnone
  have hspared := Index.add_refused hsound.index ho r hnone
  have hafter := Leads.write hsound hwriter hall
  refine ⟨?_, hspared, rfl, ?_, fun cs hlook hin => ?_, ?_⟩
  · rw [herror] at hrefused
    exact (Reply.failed.inj hrefused).symm
  · intro t ht s'' hlater
    obtain ⟨sc'', hreached''⟩ := acts_reached settings allocator (hacts'.trans hlater)
    obtain ⟨fs, sc₁, hlead'', -⟩ :=
      acts_lead hafter.sound (hreached.settled.setIndex hwriter _ _) hlater
    refine hreached''.dropped_once ?_
    rw [hlead''.books, hall.books]
    have hpassed : t ∈ (Index.passage (r.tables s.index.taken)).filterMap Event.dropped? :=
      List.mem_filterMap.mpr ⟨.tableDropped none t, List.mem_flatMap.mpr ⟨t, ht, by simp⟩, rfl⟩
    simp only [List.filterMap_append, List.mem_append]
    exact Or.inl (Or.inr (Or.inr hpassed))
  · exact (add_mirrors hsound hwriter r hnone).answers_eq hsound hafter.sound hreached.settled
      (hreached.settled.setIndex hwriter _ _) hlook hin
  · intro s'' hlater hwriter''
    obtain ⟨sc'', hreached''⟩ := acts_reached settings allocator (hacts'.trans hlater)
    exact step_add_iff hreached''.leads.sound hwriter'' r

/-- So it is when a region is offered in the place of a registered one and the list is full. -/
theorem refused_over_registered :
    let s := (start {} (.rationed none [] 32)).run [.writer (.fillCode ⟨16, 8⟩ 16 32)]
    let offered : Registration := .code ⟨⟨16, 4⟩, .ofDescriptors []⟩
    (s.step offered.command).1 = .failed .allocation ∧ (s.index.code.get? 16).isSome ∧
      Untouched offered s (s.step offered.command).2 := by
  intro s offered
  have hfull : s.writer = true ∧ (s.index.code.get? 16).isSome = true ∧
      (s.index.add offered).1 = .error .allocation := by
    decide +kernel +zetaReduce
  obtain ⟨hwriter, hthere, herror⟩ := hfull
  have hrefused : (s.step offered.command).1 = .failed .allocation := by
    rw [step_add hwriter, herror]
    rfl
  exact ⟨hrefused, hthere, (refused_untouched (run_acts _ _) offered hrefused).2⟩

/-! ## Who is let in after all -/

/-- As long as the epoch has room every attempt to take a pin succeeds. -/
theorem takePins_eq : ∀ {count : Nat} {s : Session} {f : Gate.Fields}, Gate.Packs s.index.gate f →
    f.isOpen = false → f.readers f.epoch + count < 2 ^ 16 → ∃ g pins,
      s.takePins count = { s with index := { s.index with gate := g }, pins } ∧
      Gate.Packs g (f.setReaders f.epoch (f.readers f.epoch + count))
  | 0, s, f, h, _, _ => ⟨s.index.gate, s.pins, rfl, (f.setReaders_self f.epoch).symm ▸ h⟩
  | count + 1, s, f, h, hclosed, hroom => by
      obtain ⟨g, htake, hgate⟩ := (takePin_cases h hclosed).resolve_left fun hfull => by
        omega
      have hcounted : (f.setReaders f.epoch (f.readers f.epoch + 1)).readers f.epoch =
          f.readers f.epoch + 1 := f.readers_setReaders_self ..
      unfold takePins
      rw [htake]
      obtain ⟨g', pins, hrest, hgate'⟩ := takePins_eq (s := { s with
          index := { s.index with gate := g }
          pins := s.pins.push (some { pin := ⟨f.epoch, s.index.gate.version⟩ }) }) hgate hclosed
        (show (f.setReaders ..).readers f.epoch + count < 2 ^ 16 by omega)
      have hvalue : (f.setReaders f.epoch (f.readers f.epoch + 1)).readers f.epoch + count =
          f.readers f.epoch + (count + 1) := by omega
      refine ⟨g', pins, hrest, ?_⟩
      rw [← hvalue, ← f.setReaders_setReaders f.epoch (f.readers f.epoch + 1)]
      exact hgate'

theorem step_pinMany {n count : Nat} {f : Gate.Fields} (hreader : s.hasReader n = true)
    (h : Gate.Packs s.index.gate f) (hclosed : f.isOpen = false)
    (hroom : f.readers f.epoch + count < 2 ^ 16) : ∃ g pins,
      (s.step (.reader n (.pinMany count))).2 =
        { s with index := { s.index with gate := g }, pins } ∧
      Gate.Packs g (f.setReaders f.epoch (f.readers f.epoch + count)) := by
  rw [step_reader_eq, if_pos hreader]
  exact takePins_eq h hclosed hroom

theorem step_traceback {n : Nat} (hreader : s.hasReader n = true) (a : Addr) :
    (s.step (.reader n (.traceback a))).1 = replyOf (s.index.traceback a).1 .frames := by
  rw [step_reader_eq, if_pos hreader]
  rfl

/-- Readers are not tied to the index as it was. -/
theorem step_traceback_of_index {n : Nat} (hreader : s.hasReader n = true) (ix : Index) (a : Addr) :
    (({ s with index := ix } : Session).step (.reader n (.traceback a))).1 =
      replyOf (ix.traceback a).1 .frames :=
  step_traceback (s := { s with index := ix }) hreader a

theorem step_traceback_of_add {n : Nat} (hwriter : s.writer = true) (hreader : s.hasReader n = true)
    (r : Registration) (a : Addr) : ((s.step r.command).2.step (.reader n (.traceback a))).1 =
      replyOf ((s.index.add r).2.traceback a).1 .frames := by
  rw [step_add hwriter]
  exact step_traceback_of_index hreader (s.index.add r).2 a

/-- An index that gets no second segment. A region that was removed waits for a reader who has left
by now, and another one, which was removed later, waits behind it. -/
def deserted : Session := (start {} (.rationed (some 1) [] 16384)).run [
  .writer (.addCode ⟨⟨16, 8⟩, .ofDescriptors []⟩), .writer (.addCode ⟨⟨32, 8⟩, .ofDescriptors []⟩),
  .reader 0 .pin, .writer (.freeBlock 16 24), .writer (.freeBlock 32 40), .pin 0 .unpin]

/-- That index when its current epoch is full of readers. The word of its gate says so: generation
6, 65535 readers in epoch 1, none in epoch 0, and the epoch is 1. -/
theorem deserted_crowded {s : Session} (hs : s = (deserted.step (.reader 0 (.pinMany 65535))).2) :
    s.writer = true ∧ s.hasReader 0 = true ∧
      s.index = { deserted.index with gate := ⟨0x1bfffc0002⟩ } := by
  have hpacks : Gate.Packs deserted.index.gate ⟨false, 1, fun _ => 0, 6⟩ :=
    ⟨by decide +kernel, fun _ => Nat.two_pow_pos 16, by decide⟩
  obtain ⟨g, pins, hcrowded, hgate⟩ := step_pinMany (s := deserted) (n := 0) (by decide +kernel)
    hpacks rfl (show 0 + 65535 < 2 ^ 16 by decide)
  obtain rfl : g = ⟨0x1bfffc0002⟩ :=
    congrArg Gate.mk (UInt64.toNat_inj.mp (hgate.word.trans (by decide)))
  rw [hcrowded] at hs
  rw [hs]
  refine ⟨?_, ?_, rfl⟩
  · show deserted.writer = true
    decide +kernel
  · show deserted.hasReader 0 = true
    decide +kernel

/-- The collection is all that is left of a refused registration, but it is left: when it begins a
new epoch, a reader is let in for whom there was no room in the old one. -/
theorem refused_lets_in :
    let s := (deserted.step (.reader 0 (.pinMany 65535))).2
    let offered : Registration := .depth ⟨⟨64, 8⟩, 1⟩
    (s.step offered.command).1 = .failed .allocation ∧
      (s.step (.reader 0 (.traceback 0))).1 = .failed .invalidated ∧
      ((s.step offered.command).2.step (.reader 0 (.traceback 0))).1 = .frames [] := by
  intro s offered
  obtain ⟨hwriter, hreader, hindex⟩ := deserted_crowded (s := s) rfl
  rw [step_traceback_of_add hwriter hreader, step_traceback hreader, step_add hwriter, hindex]
  refine ⟨congrArg accepted (?_ : _ = .error .allocation),
    congrArg (replyOf · .frames) (?_ : _ = .error .invalidated),
    congrArg (replyOf · .frames) (?_ : _ = .ok [])⟩
  · decide +kernel +zetaReduce
  · decide +kernel
  · decide +kernel +zetaReduce

end Session

end JitIndex
