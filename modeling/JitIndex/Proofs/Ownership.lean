import JitIndex.Proofs.Session.Acting

/-!
# Every frame table has one place

A frame table that the index took over is owned by a node that is linked, or
by one that is parked, or it was handed back, or it was dropped. The books say
what was taken over, handed back and dropped, and `Ledger` is the balance: the
tables in all these places together are the tables taken over, each of them
once. It is kept by every single move, so no table is ever lost, dropped twice,
or handed back and dropped as well.
-/

namespace JitIndex

open SkipList (Layout Entry Laid ids)

def View.owners (v : View) : List (Entry CodeRecord) :=
  v.code.linked ++ (v.code.retired ++ (v.code.sealed ++ v.code.orphans))

def tableOf (e : Entry CodeRecord) : OwnedTable := e.payload.owned

/-- The tables taken over are numbered, and each is in one place. -/
structure Ledger (books : List Event) (v : View) : Prop where
  serials : (books.filterMap Event.taken?).map OwnedTable.serial = List.range v.taken
  balance : (v.owners.map tableOf ++
    (books.filterMap Event.returned? ++ books.filterMap Event.dropped?)).Perm
      (books.filterMap Event.taken?)

/-! ## What the events of a move say about tables -/

namespace Index

theorem filterMap_disposal (keep : Option SlotId) (released : List (Entry CodeRecord)) :
    (disposal keep released).filterMap Event.taken? = [] ∧
    ((disposal keep released).filterMap Event.returned? ++
      (disposal keep released).filterMap Event.dropped?).Perm (released.map tableOf) := by
  unfold disposal
  simp only [List.filterMap_append, List.filterMap_map]
  refine ⟨by simp [Function.comp_def, Event.taken?], ?_⟩
  have hsplit := (List.filter_append_perm (fun e => some e.id == keep) released).map tableOf
  rw [List.map_append] at hsplit
  rw [show tableOf = fun e => e.payload.owned from rfl] at hsplit ⊢
  simpa [Function.comp_def, Event.returned?, Event.dropped?] using hsplit

theorem filterMap_arrival (code : Option (Entry CodeRecord)) (depth : Option (Entry Payload)) :
    (arrival code depth ++ [Event.mutationBegun]).filterMap Event.taken? = code.toList.map tableOf ∧
    (arrival code depth ++ [Event.mutationBegun]).filterMap Event.returned? = [] ∧
    (arrival code depth ++ [Event.mutationBegun]).filterMap Event.dropped? = [] := by
  unfold arrival
  cases code <;> cases depth <;> exact ⟨rfl, rfl, rfl⟩

end Index

/-! ## Every move keeps the balance -/

variable {books : List Event}

/-- Tables that go from one place to another, after others were taken over. -/
theorem Ledger.append {v w : View} {es : List Event} (h : Ledger books v)
    (hserials : List.range w.taken =
      List.range v.taken ++ (es.filterMap Event.taken?).map OwnedTable.serial)
    (hperm : (w.owners.map tableOf ++
      (es.filterMap Event.returned? ++ es.filterMap Event.dropped?)).Perm
        (v.owners.map tableOf ++ es.filterMap Event.taken?)) : Ledger (books ++ es) w where
  serials := by rw [List.filterMap_append, List.map_append, h.serials, hserials]
  balance := by
    have hbalance := h.balance
    rw [List.perm_iff_count] at hperm hbalance ⊢
    intro t
    have hp := hperm t
    have hb := hbalance t
    simp only [List.filterMap_append, List.count_append] at hp hb ⊢
    omega

/-- Tables that stay where they are, or change their place without leaving the index. -/
theorem Ledger.same {v w : View} (h : Ledger books v) (hcount : w.taken = v.taken)
    (howners : w.owners.Perm v.owners) : Ledger (books ++ []) w := by
  refine h.append ?_ ?_
  · rw [hcount]
    exact (List.append_nil _).symm
  · simpa using howners.map tableOf

theorem Ledger.dispose {v w : View} {keep : Option SlotId} {released : List (Entry CodeRecord)}
    (h : Ledger books v) (hcount : w.taken = v.taken)
    (howners : (w.owners ++ released).Perm v.owners) :
    Ledger (books ++ Index.disposal keep released) w := by
  obtain ⟨htaken, hperm⟩ := Index.filterMap_disposal keep released
  refine h.append ?_ ?_
  · rw [htaken, hcount]
    exact (List.append_nil _).symm
  · have howners := howners.map tableOf
    rw [List.map_append] at howners
    rw [htaken, List.append_nil]
    exact (hperm.append_left _).trans howners

theorem View.Move.ledger {v w : View} {es : List Event} (h : Move v es w) (ho : v.Orderly)
    (hl : Ledger books v) : Ledger (books ++ es) w := by
  cases h with
  | release keep hsealed hdrained =>
      refine hl.dispose rfl ?_
      rw [List.perm_iff_count]
      intro e
      simp only [View.owners, Layout.reclaim, List.count_append, List.count_nil]
      omega
  | turn hsealed =>
      obtain ⟨hnone, -, -⟩ := ho.idle hsealed
      refine hl.same rfl ?_
      simp only [View.owners, Layout.sealRetired, hnone, List.nil_append]
      exact List.Perm.refl _
  | refuse table => exact hl.append List.range_succ (List.Perm.refl _)
  | @mutate newCode newDepth code depth hcode hdepth hserial =>
      obtain ⟨htaken, hreturned, hdropped⟩ := Index.filterMap_arrival newCode newDepth
      refine hl.append ?_ ?_
      · rw [htaken]
        cases newCode with
        | none => exact (List.append_nil _).symm
        | some e =>
            show List.range (v.taken + 1) = List.range v.taken ++ [(tableOf e).serial]
            rw [List.range_succ, show (tableOf e).serial = v.taken from hserial e rfl]
      · rw [htaken, hreturned, hdropped, List.append_nil, List.append_nil, ← List.map_append]
        refine List.Perm.map _ ?_
        have hperm := hcode.perm
        rw [List.perm_iff_count] at hperm ⊢
        intro e
        have he := hperm e
        simp only [View.owners, View.mutated, hcode.sealed, hcode.orphans, List.count_append]
          at he ⊢
        omega

theorem Scene.Move.ledger {a b : Scene} {es : List Event} (h : Move a es b) (ho : a.Orderly)
    (hl : Ledger books a.view) : Ledger (books ++ es) b.view := by
  cases h with
  | write hwriter hmove => exact hmove.ledger (ho.attended hwriter) hl
  | pin => exact hl.same rfl (List.Perm.refl _)
  | unpin => exact hl.same rfl (List.Perm.refl _)
  | leave =>
      refine hl.same rfl ?_
      rw [List.perm_iff_count]
      intro e
      simp only [View.owners, View.abandon, List.count_append, List.count_reverse, List.count_nil]
      omega
  | dispose =>
      refine hl.dispose rfl ?_
      simp only [View.owners, View.drain, List.append_assoc, List.nil_append]
      exact List.Perm.refl _

theorem Scene.Moves.ledger {a b : Scene} {es : List Event} (h : Moves a es b) (ho : a.Orderly)
    (hl : Ledger books a.view) : Ledger (books ++ es) b.view := by
  induction h with
  | refl => rwa [List.append_nil]
  | tail hmoves hmove ih =>
      rw [← List.append_assoc]
      exact hmove.ledger (hmoves.orderly ho) ih

/-! ## What a writer leaves behind -/

/-- There are orphans only if the writer is gone. -/
theorem Scene.Move.orphans {a b : Scene} {es : List Event} (h : Move a es b)
    (ha : a.writer = true → a.view.code.orphans = []) (hwriter : b.writer = true) :
    b.view.code.orphans = [] := by
  cases h with
  | write hthere hmove =>
      have hnone := ha hthere
      cases hmove with
      | release => exact hnone
      | turn => exact hnone
      | refuse => exact hnone
      | mutate hcode => exact hcode.orphans.trans hnone
  | pin => exact ha hwriter
  | unpin => exact ha hwriter
  | leave => cases hwriter
  | dispose => rfl

theorem Scene.Moves.orphans {a b : Scene} {es : List Event} (h : Moves a es b)
    (ha : a.writer = true → a.view.code.orphans = []) (hwriter : b.writer = true) :
    b.view.code.orphans = [] := by
  induction h with
  | refl => exact ha hwriter
  | tail _ hmove ih => exact hmove.orphans ih hwriter

/-! ## What is in the memory -/

/-- What is retired in a list. -/
def SkipList.retiredEntries {α : Type} (l : SkipList α) : List (Entry α) :=
  l.contentsFrom l.used l.retired

/-- What is sealed in a list. -/
def SkipList.sealedEntries {α : Type} (l : SkipList α) : List (Entry α) :=
  l.contentsFrom l.used l.sealed

/-- What is unlinked and still in a list: retired, sealed or left behind. -/
def SkipList.parkedEntries {α : Type} (l : SkipList α) : List (Entry α) :=
  l.contentsFrom l.used l.retired ++
    (l.contentsFrom l.used l.sealed ++ l.contentsFrom l.used l.orphans)

theorem SkipList.Laid.contents_eq {α : Type} {l : SkipList α} {y : Layout α} (h : Laid l y)
    {head : Option SlotId} {es : List (Entry α)}
    (hvisits : Visits (chainOf head l.parkedAfter) none (ids es)) (hsub : es.Sublist y.entries) :
    l.contentsFrom l.used head = es := by
  refine contentsFrom_eq hvisits (fun e he => h.held e (hsub.subset he)) ?_
  simpa [ids] using h.length_ids_le hsub

theorem SkipList.Laid.retiredEntries_eq {α : Type} {l : SkipList α} {y : Layout α} (h : Laid l y) :
    l.retiredEntries = y.retired := h.contents_eq h.retired y.retired_sublist

theorem SkipList.Laid.sealedEntries_eq {α : Type} {l : SkipList α} {y : Layout α} (h : Laid l y) :
    l.sealedEntries = y.sealed := h.contents_eq h.sealed y.sealed_sublist

theorem SkipList.Laid.parkedEntries_eq {α : Type} {l : SkipList α} {y : Layout α} (h : Laid l y) :
    l.parkedEntries = y.retired ++ (y.sealed ++ y.orphans) := by
  unfold parkedEntries
  rw [h.contents_eq h.retired y.retired_sublist, h.contents_eq h.sealed y.sealed_sublist,
    h.contents_eq h.orphans y.orphans_sublist]

namespace Session

/-- The frame tables of a session: those in linked nodes, those in parked ones, those handed back
and those dropped. -/
def places (s : Session) : List OwnedTable :=
  s.index.code.entries.map tableOf ++ (s.index.code.parkedEntries.map tableOf ++
    (s.index.host.books.filterMap Event.returned? ++ s.index.host.books.filterMap Event.dropped?))

/-- Every frame table that was taken over is in one place, once; and none is left in the index when
the last handle is gone. -/
structure Accounted (s : Session) : Prop where
  numbered : (s.index.host.books.filterMap Event.taken?).map OwnedTable.serial =
    List.range s.index.taken
  placed : s.places.Perm (s.index.host.books.filterMap Event.taken?)
  once : s.places.Nodup
  gone : s.anyHandle = false → s.index.code.entries = [] ∧ s.index.code.parkedEntries = []

variable {settings : Settings} {allocator : Allocator} {s : Session} {sc : Scene}

theorem Reached.ledger (h : Reached settings allocator s sc) :
    Ledger s.index.host.books sc.view := by
  have hopening : Ledger [] opening.view := ⟨rfl, List.Perm.refl _⟩
  exact h.leads.moves.ledger (start_sound settings allocator).orderly hopening

theorem Reached.places_eq (h : Reached settings allocator s sc) :
    s.places = sc.view.owners.map tableOf ++ (s.index.host.books.filterMap Event.returned? ++
      s.index.host.books.filterMap Event.dropped?) := by
  have hcode := h.leads.sound.index.code
  unfold places View.owners
  rw [hcode.entries_eq, hcode.parkedEntries_eq]
  simp only [List.map_append, List.append_assoc]

/-- While there is a writer, what is unlinked is retired or sealed. -/
theorem Reached.parkedEntries_eq (h : Reached settings allocator s sc) (hwriter : s.writer = true) :
    s.index.code.parkedEntries = sc.view.parked := by
  have hnone : sc.view.code.orphans = [] :=
    h.leads.moves.orphans (fun _ => rfl) (h.leads.sound.writer.trans hwriter)
  rw [h.leads.sound.index.code.parkedEntries_eq, hnone, List.append_nil]
  rfl

theorem Reached.accounted (h : Reached settings allocator s sc) : Accounted s := by
  have hl := h.ledger
  have hsound := h.leads.sound
  have hnumbered := hl.serials
  rw [← hsound.index.taken] at hnumbered
  have hplaced := hl.balance
  rw [← h.places_eq] at hplaced
  refine ⟨hnumbered, hplaced, ?_, fun hgone => ?_⟩
  · have htaken : (s.index.host.books.filterMap Event.taken?).Nodup :=
      List.Nodup.of_map _ (hnumbered ▸ List.nodup_range)
    exact hplaced.nodup_iff.mpr htaken
  · obtain ⟨hwriter, -, -⟩ := (anyHandle_eq_false s).mp hgone
    obtain ⟨hlinked, -, hretired, hsealed⟩ := hsound.orderly.left (hsound.writer.trans hwriter)
    have horphans : sc.view.code.orphans = [] := by
      refine h.settled.drained ?_
      rw [h.settled.closed, hgone]
      rfl
    rw [hsound.index.code.entries_eq, hsound.index.code.parkedEntries_eq, hlinked, hretired,
      hsealed, horphans]
    exact ⟨rfl, rfl⟩

/-- Whatever happens, every frame table is accounted for, after each command and after each act. A
command takes over the tables it was offered and no others, and a table is handed back only to
whoever removes its region. -/
theorem run_accounted (settings : Settings) (allocator : Allocator) (cs : List Command) :
    (∀ s, Acts ((start settings allocator).run cs) s → Accounted s) ∧
    ∀ c, ∃ es, (((start settings allocator).run cs).step c).2.index.host.books =
        ((start settings allocator).run cs).index.host.books ++ es ∧
      (es.filterMap Event.taken?).map OwnedTable.table =
        ((start settings allocator).run cs).offered c
          (((start settings allocator).run cs).step c).1 ∧
      es.filterMap Event.returned? =
        ((start settings allocator).run cs).handedBack c
          (((start settings allocator).run cs).step c).1 := by
  obtain ⟨sc, hreached⟩ := run_reached settings allocator cs
  refine ⟨fun s hacts => ?_, fun c => ?_⟩
  · obtain ⟨sc', hreached'⟩ := acts_reached settings allocator ((run_acts _ cs).trans hacts)
    exact hreached'.accounted
  · obtain ⟨es, sc', hstep⟩ := step_stepped hreached.leads.sound hreached.settled c
    obtain ⟨n, hwork, -⟩ := hstep.work
    exact ⟨es, hstep.leads.books, hwork.tables, hwork.returned⟩

end Session

end JitIndex
