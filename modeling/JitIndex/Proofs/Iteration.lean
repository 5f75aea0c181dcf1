import JitIndex.Proofs.GracePeriod
import JitIndex.Proofs.Session.Editing
import JitIndex.Proofs.SkipList.Trail

/-!
# Iterations that outlive what they iterate over

An iteration through a pin remembers one slot, the one that it will read next,
and between two steps the writer may do whatever it likes: register, replace,
remove, clear, go away. `Iteration` is all of these interleavings, over the
code regions or over the depth regions, and `Survives` is what holds of every
one of them as long as the pin is live.

Two things come together. What was linked while the pin was live is not
released (`Reached.preserved`), so every node that the iteration may stand on
can still be read. And its link still leads on, because every act is an edit
of each list (`Followed.edited`), and edits keep an iteration on its course
(`SkipList.Course`).
-/

namespace JitIndex

open SkipList (Entry Layout Laid Cursor Course)

namespace Session

variable {α β : Type} {s s' s₁ s₂ m : Session} {sc : Scene} {settings : Settings}
  {allocator : Allocator}

/-- An iteration over one of the lists, from the session `s₁` on, in between acts of all kinds. The
moments are the sessions from there on, one for each act. The iteration has come to the entries at
the end, in their order, and goes on from the cursor. -/
inductive Iteration (list : Session → SkipList α) (s₁ : Session) :
    List Session → Session → Cursor → List (Entry α) → Prop
  | start : Iteration list s₁ [s₁] s₁ (list s₁).cursor []
  | act {moments : List Session} {s s' : Session} {c : Cursor} {es : List (Entry α)}
      (h : Iteration list s₁ moments s c es) (hact : Act s s') :
      Iteration list s₁ (moments ++ [s']) s' c es
  | next {moments : List Session} {s : Session} {c c' : Cursor} {es : List (Entry α)} {e : Entry α}
      (h : Iteration list s₁ moments s c es) (hstep : (list s).advance? c = some (e, c')) :
      Iteration list s₁ moments s c' (es ++ [e])

/-- What an iteration may rely on. `region` is what an entry of the list stands for, and `regions`
is what is registered in a session. -/
structure Survives [BEq β] (half : Half) (list : Session → SkipList α) (region : Entry α → β)
    (regions : Session → List β) (moments : List Session) (s : Session) (c : Cursor)
    (es : List (Entry α)) : Prop where
  /-- The slot that is read next was linked at some moment. It is not free and was not filled in
  since, and still holds what it held then. -/
  reads : ∀ id, c.upcoming = some id → ∃ m ∈ moments, ∃ e ∈ (list m).entries, e.id = id ∧
    ∃ since, s.index.host.books = m.index.host.books ++ since ∧
      Preserved half since (list m) (list s) e
  ascending : es.Pairwise fun a b => a.key < b.key
  registered : ∀ e ∈ es, ∃ m ∈ moments, region e ∈ regions m
  /-- An iteration that is at its end came once to every region that was registered all the time. -/
  complete : (list s).advance? c = none →
    ∀ r, (∀ m ∈ moments, r ∈ regions m) → (es.map region).count r = 1

/-! ## Nothing is lost -/

/-- The number of a pin is never given away again. -/
theorem acts_size_pins (h : Acts (start settings allocator) s) (hacts : Acts s s') :
    s.pins.size ≤ s'.pins.size := by
  obtain ⟨sc, hreached⟩ := acts_reached settings allocator h
  have hsound := hreached.leads.sound
  obtain ⟨_, sc', hlead, -⟩ := acts_lead hsound hreached.settled hacts
  have hle := hlead.moves.pin_stays.1
  rwa [hsound.length_pins, hlead.sound.length_pins] at hle

/-- What is linked while a pin is live stays as it is for as long as the pin is. -/
theorem Reached.preserved (hm : Reached settings allocator m sc) (hacts : Acts m s) {n : Nat}
    {p : HeldPin} (hlt : n < m.pins.size) (hp : s.pin? n = some p) :
    ∃ since, s.index.host.books = m.index.host.books ++ since ∧
      (∀ e ∈ m.index.code.entries, Preserved .code since m.index.code s.index.code e) ∧
      ∀ e ∈ m.index.depth.entries, Preserved .depth since m.index.depth s.index.depth e := by
  have hsound := hm.leads.sound
  obtain ⟨since, sc', hlead, -⟩ := acts_lead hsound hm.settled hacts
  obtain ⟨hcode, hdepth⟩ := hlead.preserves hsound hlt hp
  exact ⟨since, hlead.books, fun e he => (hcode e he).1, hdepth⟩

/-! ## The two lists -/

/-- What the argument needs to know about a list of the index. -/
structure Followed [Inhabited α] (half : Half) (list : Session → SkipList α) : Prop where
  laid : ∀ {s sc}, Sound s sc → ∃ y, Laid (list s) y ∧ y.pending = []
  edited : ∀ {s s'}, Act s s' → SkipList.Edited (list s) (list s')
  preserved : ∀ {settings allocator m s sc n p}, Reached settings allocator m sc → Acts m s →
    n < m.pins.size → s.pin? n = some p →
    ∃ since, s.index.host.books = m.index.host.books ++ since ∧
      ∀ e ∈ (list m).entries, Preserved half since (list m) (list s) e

theorem code_followed : Followed .code (·.index.code) where
  laid h := ⟨_, h.index.code, h.index.codeReady⟩
  edited h := (act_edited h).code
  preserved hm hacts hlt hp :=
    let ⟨since, hbooks, hcode, _⟩ := hm.preserved hacts hlt hp
    ⟨since, hbooks, hcode⟩

theorem depth_followed : Followed .depth (·.index.depth) where
  laid h := ⟨_, h.index.depth, h.index.depthReady⟩
  edited h := (act_edited h).depth
  preserved hm hacts hlt hp :=
    let ⟨since, hbooks, _, hdepth⟩ := hm.preserved hacts hlt hp
    ⟨since, hbooks, hdepth⟩

/-! ## Every iteration stays on its course -/

namespace Iteration

variable {list : Session → SkipList α} {moments : List Session} {c : Cursor} {es : List (Entry α)}

/-- The entries that were linked at some moment. -/
def seen (list : Session → SkipList α) (moments : List Session) : Set (Entry α) :=
  {e | ∃ m ∈ moments, e ∈ (list m).entries}

/-- The keys that were bound at every moment. -/
def kept (list : Session → SkipList α) (moments : List Session) : Set Addr :=
  {k | ∀ m ∈ moments, ∃ e ∈ (list m).entries, e.key = k}

theorem seen_concat (list : Session → SkipList α) (moments : List Session) (s : Session) :
    seen list (moments ++ [s]) = seen list moments ∪ {e | e ∈ (list s).entries} := by
  ext e
  simp [seen, or_and_right, exists_or]

theorem kept_concat (list : Session → SkipList α) (moments : List Session) (s : Session) :
    kept list (moments ++ [s]) =
      {k | k ∈ kept list moments ∧ ∃ e ∈ (list s).entries, e.key = k} := by
  ext k
  simp [kept, or_imp, forall_and]

/-- All moments lie between the beginning and now. -/
theorem acts (h : Iteration list s₁ moments s c es) :
    Acts s₁ s ∧ ∀ m ∈ moments, Acts s₁ m ∧ Acts m s := by
  induction h with
  | start =>
      refine ⟨.refl, fun m hm => ?_⟩
      rw [List.mem_singleton.mp hm]
      exact ⟨.refl, .refl⟩
  | act h hact ih =>
      obtain ⟨hnow, hmoments⟩ := ih
      refine ⟨hnow.tail hact, fun m hm => ?_⟩
      rcases List.mem_append.mp hm with hm | hm
      · exact ⟨(hmoments m hm).1, (hmoments m hm).2.tail hact⟩
      · rw [List.mem_singleton.mp hm]
        exact ⟨hnow.tail hact, .refl⟩
  | next h hstep ih => exact ih

/-- Between two steps there may be any acts, and so any commands. -/
theorem interrupted (h : Iteration list s₁ moments s c es) (hacts : Acts s s') :
    ∃ later, Iteration list s₁ (moments ++ later) s' c es := by
  induction hacts with
  | refl => exact ⟨[], by rwa [List.append_nil]⟩
  | @tail _ s' _ hact ih =>
      obtain ⟨later, ih⟩ := ih
      refine ⟨later ++ [s'], ?_⟩
      rw [← List.append_assoc]
      exact ih.act hact

theorem start_mem (h : Iteration list s₁ moments s c es) : s₁ ∈ moments := by
  induction h with
  | start => exact List.mem_singleton_self s₁
  | act h hact ih => exact List.mem_append_left _ ih
  | next h hstep ih => exact ih

variable [Inhabited α] {half : Half}

section

variable (hf : Followed half list) (h₁ : Acts (Session.start settings allocator) s₁) {n : Nat}
  (hlt : n < s₁.pins.size)
include hf h₁ hlt

theorem preserved (h : Iteration list s₁ moments s c es) {p : HeldPin} (hp : s.pin? n = some p) :
    ∀ m ∈ moments, ∃ since, s.index.host.books = m.index.host.books ++ since ∧
      ∀ e ∈ (list m).entries, Preserved half since (list m) (list s) e := by
  intro m hm
  obtain ⟨hbefore, hafter⟩ := h.acts.2 m hm
  obtain ⟨sc, hreached⟩ := acts_reached settings allocator (h₁.trans hbefore)
  exact hf.preserved hreached hafter (Nat.lt_of_lt_of_le hlt (acts_size_pins h₁ hbefore)) hp

theorem held (h : Iteration list s₁ moments s c es) {p : HeldPin} (hp : s.pin? n = some p) :
    ∀ e ∈ seen list moments,
      SkipList.entry? (list s) e.id = some e ∧ e.id ∉ (list s).freeSlots := by
  rintro e ⟨m, hm, he⟩
  obtain ⟨since, -, hpreserved⟩ := h.preserved hf h₁ hlt hp m hm
  exact ⟨(hpreserved e he).held, (hpreserved e he).notFree⟩

theorem course (h : Iteration list s₁ moments s c es) {p : HeldPin} (hp : s.pin? n = some p) :
    Course (list s) (seen list moments) (kept list moments) c es := by
  induction h generalizing p with
  | start =>
      obtain ⟨sc₁, hreached₁⟩ := acts_reached settings allocator h₁
      obtain ⟨y, hlaid, -⟩ := hf.laid hreached₁.leads.sound
      have hseen : seen list [s₁] = {e | e ∈ (list s₁).entries} := by
        ext e
        simp [seen]
      have hkept : kept list [s₁] = {k | ∃ e ∈ (list s₁).entries, e.key = k} := by
        ext k
        simp [kept]
      rw [hseen, hkept]
      exact .start hlaid
  | @act moments s s' c es h hact ih =>
      obtain ⟨hnow, -⟩ := h.acts
      obtain ⟨sc, hreached⟩ := acts_reached settings allocator (h₁.trans hnow)
      have hsound := hreached.leads.sound
      obtain ⟨_, _, hlead, -⟩ := act_leads hsound hreached.settled hact
      -- the pin was live before this act
      have hlt' := Nat.lt_of_lt_of_le hlt (acts_size_pins h₁ hnow)
      obtain ⟨p₀, hp₀, -⟩ := hlead.pin_before hsound hlt' hp
      obtain ⟨y, hlaid, hready⟩ := hf.laid hsound
      rw [seen_concat, kept_concat]
      exact (ih hp₀).edited hlaid hready (hf.edited hact)
  | next h hstep ih => exact (ih hp).advance (h.held hf h₁ hlt hp) hstep

/-- What the course of an iteration says about regions. -/
theorem survives [BEq β] [LawfulBEq β] {region : Entry α → β} {regions : Session → List β}
    (hregions : ∀ s, regions s = (list s).entries.map region)
    (hkey : ∀ e f, region e = region f → e.key = f.key) (h : Iteration list s₁ moments s c es)
    {p : HeldPin} (hp : s.pin? n = some p) :
    Survives half list region regions moments s c es := by
  have hcourse := h.course hf h₁ hlt hp
  have hheld := h.held hf h₁ hlt hp
  refine ⟨fun id hid => ?_, hcourse.ascending, fun e he => ?_, fun hend r hr => ?_⟩
  · obtain ⟨e, ⟨m, hm, he⟩, hslot, -⟩ := hcourse.onward.leads id hid
    obtain ⟨since, hbooks, hpreserved⟩ := h.preserved hf h₁ hlt hp m hm
    exact ⟨m, hm, e, he, hslot, since, hbooks, hpreserved e he⟩
  · obtain ⟨m, hm, he⟩ := hcourse.seen e he
    exact ⟨m, hm, hregions m ▸ List.mem_map_of_mem he⟩
  · have hbound : ∀ m ∈ moments, ∃ f ∈ (list m).entries, region f = r := fun m hm => by
      have hmem := hr m hm
      rw [hregions] at hmem
      exact List.mem_map.mp hmem
    have hdistinct : (es.map region).Nodup := by
      rw [List.Nodup, List.pairwise_map]
      exact hcourse.ascending.imp fun hlt heq => UInt64.ne_of_lt hlt (hkey _ _ heq)
    refine List.count_eq_one_of_mem hdistinct ?_
    -- the iteration came to its key, and the entry it came to there was linked at some moment
    obtain ⟨f₁, -, hf₁⟩ := hbound s₁ h.start_mem
    have hk : f₁.key ∈ kept list moments := fun m hm => by
      obtain ⟨f, hf', hregion⟩ := hbound m hm
      exact ⟨f, hf', hkey f f₁ (hregion.trans hf₁.symm)⟩
    obtain ⟨e, he, hsame⟩ := hcourse.complete hheld hend hk
    obtain ⟨m, hm, hmem⟩ := hcourse.seen e he
    obtain ⟨f, hmem', hregion⟩ := hbound m hm
    obtain ⟨sc, hreached⟩ := acts_reached settings allocator (h₁.trans (h.acts.2 m hm).1)
    obtain ⟨y, hlaid, -⟩ := hf.laid hreached.leads.sound
    rw [hlaid.entries_eq] at hmem hmem'
    have hkey' : e.key = f.key := hsame.trans (hkey f₁ f (hf₁.trans hregion.symm))
    obtain rfl := SkipList.eq_of_key hlaid.sorted hmem hmem' hkey'
    exact hregion ▸ List.mem_map_of_mem he

end

end Iteration

/-- An iteration over the code regions or the depth regions survives whatever the writer and other
readers do while its pin is live: it reads no slot that became free, the keys rise, it comes only to
regions that were registered meanwhile, and at its end it has come to each one that was there all
the time, once. -/
theorem iteration_survives (h₁ : Acts (start settings allocator) s₁) {n : Nat} {p₁ p₂ : HeldPin}
    (hp₁ : s₁.pin? n = some p₁) (hp₂ : s₂.pin? n = some p₂) :
    (∀ moments c es, Iteration (·.index.code) s₁ moments s₂ c es →
      Survives .code (·.index.code) CodeRegion.ofEntry (·.index.codeRegions) moments s₂ c es) ∧
    ∀ moments c es, Iteration (·.index.depth) s₁ moments s₂ c es →
      Survives .depth (·.index.depth) DepthRegion.ofEntry (·.index.depthRegions)
        moments s₂ c es := by
  have hlt := lt_size_of_pin hp₁
  constructor
  · intro moments c es h
    refine h.survives code_followed h₁ hlt (fun _ => rfl) (fun e f heq => ?_) hp₂
    exact congrArg (fun r => r.start) heq
  · intro moments c es h
    refine h.survives depth_followed h₁ hlt (fun _ => rfl) (fun e f heq => ?_) hp₂
    exact congrArg (fun r => r.start) heq

/-- The iteration stands before the second region when that one is removed, the first one is
replaced, and another one is registered behind it. It still comes to the removed region, and from
there to the third one. -/
theorem iteration_over_removed : ∃ s₁ s₂ moments es c,
    Iteration (·.index.code) s₁ moments s₂ c es ∧
      es.map CodeRegion.ofEntry = [⟨⟨16, 8⟩, .ofDescriptors []⟩, ⟨⟨32, 8⟩, .ofDescriptors []⟩,
        ⟨⟨48, 8⟩, .ofDescriptors []⟩] ∧
      s₂.index.codeRegions = [⟨⟨16, 4⟩, .ofDescriptors []⟩, ⟨⟨40, 8⟩, .ofDescriptors []⟩,
        ⟨⟨48, 8⟩, .ofDescriptors []⟩] ∧
      Survives .code (·.index.code) CodeRegion.ofEntry (·.index.codeRegions) moments s₂ c es := by
  obtain ⟨s₁, hs₁⟩ : ∃ s₁, s₁ = (start {} .generous).run
    [.writer (.addCode ⟨⟨16, 8⟩, .ofDescriptors []⟩),
      .writer (.addCode ⟨⟨32, 8⟩, .ofDescriptors []⟩),
      .writer (.addCode ⟨⟨48, 8⟩, .ofDescriptors []⟩), .reader 0 .pin] := ⟨_, rfl⟩
  obtain ⟨s₂, hs₂⟩ : ∃ s₂, s₂ = s₁.run [.writer (.freeBlock 32 40),
    .writer (.addCode ⟨⟨16, 4⟩, .ofDescriptors []⟩),
    .writer (.addCode ⟨⟨40, 8⟩, .ofDescriptors []⟩)] := ⟨_, rfl⟩
  obtain ⟨p₁, hp₁⟩ := Option.isSome_iff_exists.mp (by rw [hs₁]; decide +kernel :
    (s₁.pin? 0).isSome = true)
  obtain ⟨p₂, hp₂⟩ := Option.isSome_iff_exists.mp (by rw [hs₂, hs₁]; decide +kernel :
    (s₂.pin? 0).isSome = true)
  -- one step before the writer comes in, and two after it
  obtain ⟨⟨e₁, _⟩, hstep₁, heq₁⟩ := Option.map_eq_some_iff.mp (by rw [hs₁]; decide +kernel :
    (s₁.index.code.advance? s₁.index.code.cursor).map (fun r => (CodeRegion.ofEntry r.1, r.2)) =
      some (⟨⟨16, 8⟩, .ofDescriptors []⟩, ⟨SlotId.nth? 1⟩))
  obtain ⟨⟨e₂, _⟩, hstep₂, heq₂⟩ := Option.map_eq_some_iff.mp (by rw [hs₂, hs₁]; decide +kernel :
    (s₂.index.code.advance? ⟨SlotId.nth? 1⟩).map (fun r => (CodeRegion.ofEntry r.1, r.2)) =
      some (⟨⟨32, 8⟩, .ofDescriptors []⟩, ⟨SlotId.nth? 2⟩))
  obtain ⟨⟨e₃, c⟩, hstep₃, heq₃⟩ := Option.map_eq_some_iff.mp (by rw [hs₂, hs₁]; decide +kernel :
    (s₂.index.code.advance? ⟨SlotId.nth? 2⟩).map (fun r => (CodeRegion.ofEntry r.1, r.2)) =
      some (⟨⟨48, 8⟩, .ofDescriptors []⟩, ⟨none⟩))
  obtain ⟨hregion₁, rfl⟩ := Prod.mk.inj heq₁
  obtain ⟨hregion₂, rfl⟩ := Prod.mk.inj heq₂
  obtain ⟨hregion₃, rfl⟩ := Prod.mk.inj heq₃
  have hacts₁ : Acts (start {} .generous) s₁ := hs₁ ▸ run_acts (start {} .generous) _
  have hacts₂ : Acts s₁ s₂ := hs₂ ▸ run_acts s₁ _
  have hbegun : Iteration (·.index.code) s₁ [s₁] s₁ ⟨SlotId.nth? 1⟩ [e₁] := .next .start hstep₁
  obtain ⟨later, hlater⟩ := hbegun.interrupted hacts₂
  have h := (hlater.next hstep₂).next hstep₃
  refine ⟨s₁, s₂, _, _, _, h, ?_, by rw [hs₂, hs₁]; decide +kernel,
    (iteration_survives hacts₁ hp₁ hp₂).1 _ _ _ h⟩
  simp [hregion₁, hregion₂, hregion₃]

end Session

end JitIndex
