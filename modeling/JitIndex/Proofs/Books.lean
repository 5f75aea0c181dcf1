import JitIndex.Slot.Pool

/-!
# The books of a host

Of all that a journal holds, the books are the part that is kept for proofs:
mutations, slots that are filled in, frame tables that change hands, and
faults. The rest is traffic with the allocator and lines for a log, and comes
and goes without a trace here. So what an operation does to the books is a
short list of events, and most operations leave them alone.
-/

namespace JitIndex

namespace Host

def books (h : Host) : List Event := h.journal.toList.filter fun e => e.channel = .books

theorem books_note (h : Host) (e : Event) :
    (h.note e).books = h.books ++ if e.channel = .books then [e] else [] := by
  unfold books note
  rw [Array.toList_push, List.filter_append]
  by_cases he : e.channel = .books <;> simp [he]

theorem books_note_of_books (h : Host) {e : Event} (he : e.channel = .books) :
    (h.note e).books = h.books ++ [e] := by
  rw [books_note, if_pos he]

theorem books_note_of_not_books (h : Host) {e : Event} (he : e.channel ≠ .books) :
    (h.note e).books = h.books := by
  rw [books_note, if_neg he, List.append_nil]

theorem books_notes (h : Host) (es : List Event) :
    (h.notes es).books = h.books ++ es.filter fun e => e.channel = .books := by
  induction es generalizing h with
  | nil => simp [notes]
  | cons e es ih =>
      show ((h.note e).notes es).books = _
      rw [ih, books_note, List.filter_cons]
      by_cases he : e.channel = .books <;> simp [he]

theorem books_request (h : Host) (slots : Nat) : (h.request slots).2.books = h.books := by
  unfold request
  dsimp only
  rw [books_note_of_not_books]
  · rfl
  · split <;> rintro ⟨⟩

end Host

/-! ## What the books say about frame tables and mutations -/

namespace Event

def taken? : Event → Option OwnedTable
  | tableTaken table => some table
  | _ => none

def dropped? : Event → Option OwnedTable
  | tableDropped _ table => some table
  | _ => none

def returned? : Event → Option OwnedTable
  | tableReturned _ table => some table
  | _ => none

end Event

/-- What a piece of work comes to: so many mutations, the tables that were taken over, and the
ones that were handed back. -/
structure Work (es : List Event) (mutations : Nat) (tables : List FrameTable)
    (returned : List OwnedTable) : Prop where
  mutations : es.count .mutationBegun = mutations
  tables : (es.filterMap Event.taken?).map OwnedTable.table = tables
  returned : es.filterMap Event.returned? = returned

theorem Work.nil : Work [] 0 [] [] := ⟨rfl, rfl, rfl⟩

theorem Work.append {es fs : List Event} {m n : Nat} {ts us : List FrameTable}
    {rs qs : List OwnedTable} (h : Work es m ts rs) (h' : Work fs n us qs) :
    Work (es ++ fs) (m + n) (ts ++ us) (rs ++ qs) where
  mutations := by rw [List.count_append, h.mutations, h'.mutations]
  tables := by rw [List.filterMap_append, List.map_append, h.tables, h'.tables]
  returned := by rw [List.filterMap_append, h.returned, h'.returned]

/-- Where no table is taken over and at most one is handed back, the order of events does not
matter. -/
theorem Work.of_perm {es fs : List Event} {n : Nat} {rs : List OwnedTable} (h : Work es n [] rs)
    (hone : rs.length ≤ 1) (hperm : fs.Perm es) : Work fs n [] rs where
  mutations := hperm.count_eq _ ▸ h.mutations
  tables := by
    have htables := (hperm.filterMap Event.taken?).map OwnedTable.table
    rw [h.tables] at htables
    exact htables.eq_nil
  returned := by
    have hreturned := hperm.filterMap Event.returned?
    rw [h.returned] at hreturned
    match rs, hone with
    | [], _ => exact hreturned.eq_nil
    | [_], _ => exact List.perm_singleton.mp hreturned

universe u

theorem Pool.books_ensure {α : Type u} (p : Pool α) (host : Host) (id : SlotId) (init : Nat → α) :
    (p.ensure host id init).2.2.books = host.books := by
  unfold ensure
  split
  · rfl
  · dsimp only
    have hreq := host.books_request (segmentSize id.segment)
    split
    · rename_i heq
      rw [← hreq, heq]
    · rename_i heq
      rw [← hreq, heq]
      exact Host.books_note_of_not_books _ (by rintro ⟨⟩)

end JitIndex
