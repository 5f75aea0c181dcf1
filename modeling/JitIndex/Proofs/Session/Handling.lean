import JitIndex.Proofs.Index.Writing
import JitIndex.Proofs.Session.Scene

/-!
# Handles that come and go

What a session does apart from reading and writing: pins are taken and given
back, readers come and go, the writer leaves, and the index goes with the last
handle. None of it hands a frame table back to its owner.
-/

namespace JitIndex

open SkipList (Layout Entry Laid ids)

/-- A reader that leaves right away leaves no trace. -/
theorem Gate.unpin_pin? {g g' : Gate} {p : Gate.Pin} (h : g.pin? = some (p, g')) :
    g'.unpin p = g := by
  unfold Gate.pin? at h
  split at h
  · cases h
  · obtain ⟨rfl, rfl⟩ := Prod.mk.inj (Option.some.inj h)
    unfold Gate.unpin
    rw [UInt64.add_sub_cancel]

namespace Index

variable {ix : Index} {v : View}

theorem Sound.setGate (h : Sound ix v) {g : Gate} {f : Gate.Fields} (hg : Gate.Packs g f)
    (hclosed : f.isOpen = false) : Sound { ix with gate := g } { v with gate := f } :=
  ⟨h.code, h.depth, h.codeReady, h.depthReady, hg, hclosed, h.sealedEpoch, h.taken⟩

theorem reading_snd {β : Type} (ix : Index) (look : Index → β) : (ix.reading look).2 = ix := by
  unfold reading pin?
  cases hpin : ix.gate.pin? with
  | none => rfl
  | some pair =>
      obtain ⟨p, g⟩ := pair
      show ({ ix with gate := g.unpin p } : Index) = ix
      rw [Gate.unpin_pin? hpin]

/-- A reader is let in exactly if the epoch has room. -/
theorem pin?_isSome_iff (h : Sound ix v) :
    ix.pin?.isSome = true ↔ v.gate.readers v.gate.epoch < 2 ^ 16 - 1 := by
  unfold pin?
  rw [Option.isSome_map]
  rcases h.gate.pin?_eq with ⟨hnone, hfull⟩ | ⟨-, g, hsome, hgate⟩
  · rw [hnone]
    have hfull := hfull.resolve_left fun hopen =>
      Bool.false_ne_true (h.closed.symm.trans hopen)
    simp [hfull]
  · rw [hsome]
    have hlt := hgate.readers v.gate.epoch
    rw [Gate.Fields.readers_setReaders_self] at hlt
    simp only [Option.isSome_some, true_iff]
    omega

/-- A reading answers what is in the index, if a reader is let in. -/
theorem reading_eq (h : Sound ix v) {β : Type} (look : Index → β)
    (hlook : ∀ g, look { ix with gate := g } = look ix) :
    (ix.reading look).1 = if ix.pin?.isSome then .ok (look ix) else .error .invalidated := by
  unfold reading pin?
  rcases h.gate.pin?_eq with ⟨hnone, -⟩ | ⟨-, g, hsome, hgate⟩
  · rw [hnone]
    rfl
  · rw [hsome]
    have hcurrent : g.isCurrent ⟨v.gate.epoch, ix.gate.version⟩ = true :=
      beq_iff_eq.mpr ((hgate.version_inj h.gate).mpr ⟨rfl, rfl⟩)
    show (if g.isCurrent _ then Except.ok (look { ix with gate := g }) else _) = .ok (look ix)
    rw [if_pos hcurrent, hlook]

end Index

namespace Session

variable {s s' s'' : Session} {sc sc' sc'' : Scene} {v : View}

/-- A session was led to another one by moves that hand no table back, with so many mutations and
these tables taken over. -/
def Works (s : Session) (sc : Scene) (mutations : Nat) (tables : List FrameTable) (s' : Session)
    (sc' : Scene) : Prop :=
  ∃ es, Leads s sc es s' sc' ∧ Work es mutations tables []

variable {m n : Nat} {ts us : List FrameTable}

theorem Works.refl (h : Sound s sc) : Works s sc 0 [] s sc := ⟨[], .refl h, .nil⟩

theorem Works.trans (h : Works s sc m ts s' sc') (h' : Works s' sc' n us s'' sc'') :
    Works s sc (m + n) (ts ++ us) s'' sc'' :=
  let ⟨es, hlead, hwork⟩ := h
  let ⟨fs, hlead', hwork'⟩ := h'
  ⟨es ++ fs, hlead.trans hlead', hwork.append hwork'⟩

theorem Works.sound (h : Works s sc n ts s' sc') : Sound s' sc' :=
  let ⟨_, hlead, _⟩ := h
  hlead.sound

theorem Works.write (h : Sound s sc) (hwriter : s.writer = true) {ix : Index} {v : View}
    (hwork : s.index.Works sc.view n ts ix v) :
    Works s sc n ts { s with index := ix } { sc with view := v } :=
  let ⟨es, hlead, hrest⟩ := hwork
  ⟨es, .write h hwriter hlead, hrest⟩

/-- Moves that write nothing down, and leave both lists alone. -/
theorem Works.of_moves (h : Scene.Moves sc [] sc') (hsound : Sound s' sc')
    (hhost : s'.index.host = s.index.host) (hcode : s'.index.code = s.index.code)
    (hdepth : s'.index.depth = s.index.depth) : Works s sc 0 [] s' sc' := by
  refine ⟨[], ⟨h, hsound, ?_, ?_, ?_⟩, .nil⟩
  · rw [hhost, List.append_nil]
  · rw [hcode]
    exact .of_core rfl fun _ => rfl
  · rw [hdepth]
    exact .of_core rfl fun _ => rfl

/-- What does not touch the index, its pins or its writer does not change the scene. -/
theorem Works.of_same (h : Sound s sc) (hindex : s'.index = s.index)
    (hpins : s'.pins.toList.map (Option.map HeldPin.pin) =
      s.pins.toList.map (Option.map HeldPin.pin))
    (hwriter : s'.writer = s.writer) : Works s sc 0 [] s' sc := by
  have hsound : Sound s' sc :=
    ⟨hindex ▸ h.index, h.pins.trans hpins.symm, h.writer.trans hwriter.symm, h.orderly⟩
  refine .of_moves (.refl sc) hsound ?_ ?_ ?_ <;> rw [hindex]

/-! ## The end of an index -/

/-- The index is gone exactly when there is no handle, and then nothing is left of it. -/
structure Settled (s : Session) (sc : Scene) : Prop where
  closed : s.disposed = !s.anyHandle
  drained : s.disposed = true → sc.view.code.orphans = []

theorem anyHandle_eq_false (s : Session) : s.anyHandle = false ↔
    s.writer = false ∧ s.readers.any id = false ∧ s.anyPin = false := by
  simp [anyHandle, and_assoc]

theorem anyPin_eq_false (h : Sound s sc) : s.anyPin = false ↔ ∀ p ∈ sc.pins, p = none := by
  unfold anyPin
  rw [h.pins, Array.any_eq_false', List.forall_mem_map]
  simp

theorem books_free {α : Type} (p : Pool α) (host : Host) : (p.free host).books = host.books := by
  unfold Pool.free
  generalize p.segments.toList = segments
  induction segments generalizing host with
  | nil => rfl
  | cons segment segments ih =>
      rw [List.foldl_cons, ih]
      cases segment with
      | none => rfl
      | some a => exact host.books_note_of_not_books (by rintro ⟨⟩)

theorem dispose_leads (h : Sound s sc) (hwriter : s.writer = false) (hpins : s.anyPin = false) :
    Leads s sc (Index.disposal none sc.view.code.orphans)
      { s with index := s.index.dispose, disposed := true } { sc with view := sc.view.drain } := by
  obtain ⟨code, hdrain, hlaid, hcore, hused⟩ := h.index.code.drain_eq
  have hmove :=
    Scene.Moves.single (.dispose (h.writer.trans hwriter) ((anyPin_eq_false h).mp hpins))
  have hbooks : (s.index.depth.dispose (code.dispose
      (Index.disposeTables s.index.host [] sc.view.code.orphans))).books =
        s.index.host.books ++ Index.disposal none sc.view.code.orphans := by
    unfold SkipList.dispose
    rw [books_free, books_free, Index.books_disposeTables]
    congr 1
    simp [Index.disposal]
  have hindex : s.index.dispose = { s.index with
      code
      host := s.index.depth.dispose (code.dispose
        (Index.disposeTables s.index.host [] sc.view.code.orphans)) } := by
    simp only [Index.dispose, hdrain]
  refine ⟨hmove, ⟨?_, h.pins, h.writer, hmove.orderly h.orderly⟩, ?_, ?_, ?_⟩
  · show s.index.dispose.Sound _
    rw [hindex]
    exact ⟨hlaid, h.index.depth, h.index.codeReady, h.index.depthReady, h.index.gate,
      h.index.closed, h.index.sealedEpoch, h.index.taken⟩
  · show s.index.dispose.host.books = _
    rw [hindex]
    exact hbooks
  · show Index.Keeps _ _ _ s.index.dispose.code
    rw [hindex]
    exact .of_core hused hcore
  · show Index.Keeps _ _ _ s.index.dispose.depth
    rw [hindex]
    exact .of_core rfl fun _ => rfl

/-- While there is a writer, the index does not go away. -/
theorem settle_eq (hwriter : s.writer = true) : s.settle = s := by
  unfold settle anyHandle
  rw [hwriter]
  rfl

theorem settle_works (h : Sound s sc)
    (hgone : s.disposed = true → s.anyHandle = false ∧ sc.view.code.orphans = []) :
    ∃ sc', Works s sc 0 [] s.settle sc' ∧ Settled s.settle sc' ∧
      sc'.view.registry = sc.view.registry := by
  unfold settle
  by_cases hstay : (s.anyHandle || s.disposed) = true
  · rw [if_pos hstay]
    refine ⟨sc, .refl h, ⟨?_, fun hd => (hgone hd).2⟩, rfl⟩
    cases hd : s.disposed with
    | true => rw [(hgone hd).1]; rfl
    | false =>
        rw [hd, Bool.or_false] at hstay
        rw [hstay]
        rfl
  · rw [if_neg hstay]
    simp only [Bool.or_eq_true, not_or, Bool.not_eq_true] at hstay
    obtain ⟨hwriter, hreaders, hpins⟩ := (anyHandle_eq_false s).mp hstay.1
    have hwork : Work (Index.disposal none sc.view.code.orphans) 0 [] [] := by
      simpa using Index.disposal_work none sc.view.code.orphans
    refine ⟨_, ⟨_, dispose_leads h hwriter hpins, hwork⟩, ⟨?_, fun _ => rfl⟩, rfl⟩
    have : anyHandle { s with index := s.index.dispose, disposed := true } = s.anyHandle := rfl
    rw [this, hstay.1]
    rfl

/-- To its users, a session stays as it is. -/
def Stays (s : Session) (sc : Scene) (s' : Session) : Prop :=
  ∃ sc', Works s sc 0 [] s' sc' ∧ Settled s' sc' ∧ sc'.view.registry = sc.view.registry

/-- A session that stayed as it was lets go of its index if there is no handle left. -/
theorem Works.stays_settle (h : Works s sc 0 [] s' sc') (hs : Settled s sc)
    (hregistry : sc'.view.registry = sc.view.registry) (hdisposed : s'.disposed = s.disposed)
    (hhandle : s.anyHandle = false → s'.anyHandle = false)
    (horphans : sc'.view.code.orphans = sc.view.code.orphans) : Stays s sc s'.settle := by
  have hgone : s'.disposed = true → s'.anyHandle = false ∧ sc'.view.code.orphans = [] := by
    intro hd
    rw [hdisposed] at hd
    refine ⟨hhandle ?_, horphans.trans (hs.drained hd)⟩
    have hclosed := hs.closed
    rw [hd] at hclosed
    simpa using hclosed.symm
  obtain ⟨sc'', hwork, hsettled, hreg⟩ := settle_works h.sound hgone
  exact ⟨sc'', h.trans hwork, hsettled, hreg.trans hregistry⟩

/-! ## Pins and readers -/

theorem anyHandle_of_pin {n : Nat} {p : HeldPin} (h : s.pin? n = some p) : s.anyHandle = true := by
  have hmem : some p ∈ s.pins := Array.mem_of_getElem? (Option.join_eq_some_iff.mp h)
  have hany : s.anyPin = true := Array.any_eq_true'.mpr ⟨some p, hmem, rfl⟩
  unfold anyHandle
  rw [hany, Bool.or_true]

theorem anyHandle_of_reader {n : Nat} (h : s.hasReader n = true) : s.anyHandle = true := by
  have hmem : true ∈ s.readers := by
    unfold hasReader at h
    rw [Array.getD_eq_getD_getElem?] at h
    cases hget : s.readers[n]? with
    | none => simp [hget] at h
    | some b =>
        obtain rfl : b = true := by simpa [hget] using h
        exact Array.mem_of_getElem? hget
  have hany : s.readers.any id = true := Array.any_eq_true'.mpr ⟨true, hmem, rfl⟩
  unfold anyHandle
  rw [hany, Bool.or_true, Bool.true_or]

theorem Settled.not_disposed (hs : Settled s sc) (h : s.anyHandle = true) : s.disposed = false := by
  rw [hs.closed, h]
  rfl

/-- A reader pins himself in the current epoch, if it has room. -/
theorem takePin_cases {f : Gate.Fields} (h : Gate.Packs s.index.gate f)
    (hclosed : f.isOpen = false) :
    (s.takePin = (false, s) ∧ f.readers f.epoch = 2 ^ 16 - 1) ∨
    ∃ g, s.takePin = (true, { s with
        index := { s.index with gate := g }
        pins := s.pins.push (some { pin := ⟨f.epoch, s.index.gate.version⟩ }) }) ∧
      Gate.Packs g (f.setReaders f.epoch (f.readers f.epoch + 1)) := by
  unfold takePin Index.pin?
  rcases h.pin?_eq with ⟨hnone, hfull⟩ | ⟨-, g, hsome, hgate⟩
  · rw [hnone]
    exact Or.inl ⟨rfl, hfull.resolve_left fun hopen =>
      Bool.false_ne_true (hclosed.symm.trans hopen)⟩
  · rw [hsome]
    exact Or.inr ⟨g, rfl, hgate⟩

theorem takePin_works (h : Sound s sc) :
    s.takePin = (false, s) ∨ ∃ s' sc', s.takePin = (true, s') ∧ Works s sc 0 [] s' sc' ∧
      sc'.view.registry = sc.view.registry ∧ s'.disposed = s.disposed ∧ s'.anyHandle = true := by
  rcases takePin_cases h.index.gate h.index.closed with ⟨hnone, -⟩ | ⟨g, hsome, hgate⟩
  · exact Or.inl hnone
  · have hversion : s.index.gate.version.toNat = 2 ^ 34 * sc.view.gate.generation := by
      rw [h.index.gate.version_eq, h.index.closed]
      simp
    have hmove : Scene.Moves sc [] _ := .single (.pin hversion)
    refine Or.inr ⟨_, _, hsome, .of_moves hmove ⟨?_, ?_, h.writer, hmove.orderly h.orderly⟩ rfl rfl
      rfl, rfl, rfl, ?_⟩
    · exact h.index.setGate hgate h.index.closed
    · simp [h.pins]
    · simp [anyHandle, anyPin]

theorem takePins_works : ∀ (count : Nat) {s : Session} {sc : Scene}, Sound s sc →
    s.anyHandle = true → ∃ sc', Works s sc 0 [] (s.takePins count) sc' ∧
      sc'.view.registry = sc.view.registry ∧ (s.takePins count).disposed = s.disposed ∧
      (s.takePins count).anyHandle = true
  | 0, s, sc, h, hhandle => ⟨sc, .refl h, rfl, rfl, hhandle⟩
  | count + 1, s, sc, h, hhandle => by
      unfold takePins
      rcases takePin_works h with hnone | ⟨s₁, sc₁, hsome, hwork, hreg, hdisposed, hhandle₁⟩
      · rw [hnone]
        exact takePins_works count h hhandle
      · rw [hsome]
        obtain ⟨sc', hwork', hreg', hdisposed', hhandle'⟩ :=
          takePins_works count hwork.sound hhandle₁
        exact ⟨sc', hwork.trans hwork', hreg'.trans hreg, hdisposed'.trans hdisposed, hhandle'⟩

theorem unpin_moves {ix : Index} (hix : ix.Sound sc.view) (ho : sc.Orderly) {n : Nat} {p : Gate.Pin}
    (hpin : sc.pins[n]? = some (some p)) :
    ∃ v, Scene.Moves sc [] { sc with view := v, pins := sc.pins.set n none } ∧
      (ix.unpin p).Sound v ∧ v.code = sc.view.code ∧ v.depth = sc.view.depth := by
  have hpos : 0 < sc.view.gate.readers p.epoch := by
    rw [ho.readers]
    exact Scene.pinned_pos hpin
  exact ⟨_, .single (.unpin hpin), hix.setGate (hix.gate.unpin p hpos) hix.closed, rfl, rfl⟩

theorem registry_of_layouts {v w : View} (hcode : w.code = v.code) (hdepth : w.depth = v.depth) :
    w.registry = v.registry :=
  View.registry_congr (by rw [hcode]) (by rw [hdepth])

theorem dropPin_works (h : Sound s sc) (hs : Settled s sc) {n : Nat} {p : HeldPin}
    (hpin : s.pin? n = some p) : Stays s sc (s.dropPin n) := by
  obtain ⟨v, hmoves, hindex, hcode, hdepth⟩ := unpin_moves h.index h.orderly (h.pin_live hpin)
  have hsound : Sound
      { s with index := s.index.unpin p.pin, pins := s.pins.setIfInBounds n none }
      { sc with view := v, pins := sc.pins.set n none } :=
    ⟨hindex, by simp [h.pins, List.map_set], h.writer, hmoves.orderly h.orderly⟩
  unfold dropPin
  rw [hpin]
  refine Works.stays_settle (.of_moves hmoves hsound rfl rfl rfl) hs
    (registry_of_layouts hcode hdepth) rfl ?_ (by rw [hcode])
  rw [anyHandle_of_pin hpin]
  rintro ⟨⟩

/-- The readers behind pins leave, one after the other. -/
theorem release_moves : ∀ {pins : List (Option HeldPin)} {k : Nat} {ix : Index} {sc : Scene},
    ix.Sound sc.view → sc.Orderly →
    sc.pins = List.replicate k none ++ pins.map (Option.map HeldPin.pin) →
    ∃ v, Scene.Moves sc [] { sc with view := v, pins := List.replicate (k + pins.length) none } ∧
      (pins.foldl release ix).Sound v ∧ v.code = sc.view.code ∧ v.depth = sc.view.depth
  | [], k, ix, sc, hix, _, hpins => by
      refine ⟨sc.view, ?_, hix, rfl, rfl⟩
      have : List.replicate (k + ([] : List (Option HeldPin)).length) none = sc.pins := by
        rw [hpins]
        simp
      rw [this]
      exact .refl sc
  | none :: pins, k, ix, sc, hix, ho, hpins => by
      rw [List.length_cons, Nat.add_comm pins.length, ← Nat.add_assoc]
      refine release_moves hix ho ?_
      rw [hpins, List.replicate_succ', List.map_cons, List.append_assoc]
      rfl
  | some p :: pins, k, ix, sc, hix, ho, hpins => by
      have hscene : sc.pins[k]? = some (some p.pin) := by
        rw [hpins]
        simp
      obtain ⟨v, hmoves, hindex, hcode, hdepth⟩ := unpin_moves hix ho hscene
      have hrest : sc.pins.set k none =
          List.replicate (k + 1) none ++ pins.map (Option.map HeldPin.pin) := by
        rw [hpins, List.replicate_succ', List.append_assoc, List.set_append_right _ _ (by simp)]
        simp
      obtain ⟨w, hmoves', hindex', hcode', hdepth'⟩ :=
        release_moves hindex (hmoves.orderly ho) hrest
      rw [List.length_cons, Nat.add_comm pins.length, ← Nat.add_assoc]
      exact ⟨w, hmoves.trans hmoves', hindex', hcode'.trans hcode, hdepth'.trans hdepth⟩

/-- The readers of an index leave its lists and its host alone. -/
theorem foldl_release (pins : List (Option HeldPin)) (ix : Index) :
    (pins.foldl release ix).host = ix.host ∧ (pins.foldl release ix).code = ix.code ∧
      (pins.foldl release ix).depth = ix.depth := by
  induction pins generalizing ix with
  | nil => exact ⟨rfl, rfl, rfl⟩
  | cons pin pins ih =>
      obtain ⟨hhost, hcode, hdepth⟩ := ih (release ix pin)
      cases pin <;> exact ⟨hhost, hcode, hdepth⟩

/-- All pins of a session go away, and the session is not looked at yet. -/
def unpinAll (s : Session) : Session :=
  { s with
    index := s.pins.foldl release s.index
    pins := s.pins.map fun _ => none }

theorem unpinAll_works (h : Sound s sc) : ∃ sc', Works s sc 0 [] s.unpinAll sc' ∧
    sc'.view.code = sc.view.code ∧ sc'.view.depth = sc.view.depth ∧
    sc'.pins.length = sc.pins.length := by
  have hpins : sc.pins = List.replicate 0 none ++ s.pins.toList.map (Option.map HeldPin.pin) :=
    h.pins
  obtain ⟨v, hmoves, hindex, hcode, hdepth⟩ := release_moves h.index h.orderly hpins
  obtain ⟨hhost, hcodeList, hdepthList⟩ := foldl_release s.pins.toList s.index
  rw [Array.foldl_toList] at hhost hcodeList hdepthList hindex
  refine ⟨_, .of_moves hmoves ⟨hindex, ?_, h.writer, hmoves.orderly h.orderly⟩ hhost hcodeList
    hdepthList, hcode, hdepth, ?_⟩
  · simp [unpinAll, List.map_const']
  · simp [h.pins]

theorem dropPins_works (h : Sound s sc) (hs : Settled s sc) : Stays s sc s.dropPins := by
  obtain ⟨sc', hwork, hcode, hdepth, -⟩ := unpinAll_works h
  refine hwork.stays_settle hs (registry_of_layouts hcode hdepth) rfl ?_ (by rw [hcode])
  rw [anyHandle_eq_false, anyHandle_eq_false]
  rintro ⟨hwriter, hreaders, -⟩
  exact ⟨hwriter, hreaders, by simp [anyPin, unpinAll]⟩

theorem dropReader_works (h : Sound s sc) (hs : Settled s sc) {n : Nat}
    (hreader : s.hasReader n = true) : Stays s sc (s.dropReader n) := by
  have hwork : Works s sc 0 [] { s with readers := s.readers.setIfInBounds n false } sc :=
    .of_same h rfl rfl rfl
  refine hwork.stays_settle hs rfl rfl ?_ rfl
  rw [anyHandle_of_reader hreader]
  rintro ⟨⟩

/-- What keeps the index, the writer, the pins in their places and at least one handle. -/
theorem stays_of_same (h : Sound s sc) (hs : Settled s sc) (hindex : s'.index = s.index)
    (hpins : s'.pins.toList.map (Option.map HeldPin.pin) =
      s.pins.toList.map (Option.map HeldPin.pin))
    (hwriter : s'.writer = s.writer) (hdisposed : s'.disposed = s.disposed)
    (hhandle : s.anyHandle = true) (hhandle' : s'.anyHandle = true) : Stays s sc s' := by
  refine ⟨sc, .of_same h hindex hpins hwriter, ⟨?_, fun hd => ?_⟩, rfl⟩
  · rw [hdisposed, hs.closed, hhandle, hhandle']
  · exact hs.drained (hdisposed.symm.trans hd)

/-! ## The writer -/

theorem abandon_sound {ix : Index} (h : ix.Sound v) (ho : v.Orderly) :
    ix.abandon.Sound v.abandon ∧ ix.abandon.host.books = ix.host.books ∧
      (∀ id, ix.abandon.code.core? id = ix.code.core? id) ∧
      ix.abandon.code.used = ix.code.used ∧ ix.abandon.depth = ix.depth := by
  unfold Index.abandon
  by_cases hparked : (ix.sealedEpoch.isSome || ix.code.hasRetired) = true
  · rw [if_pos hparked]
    obtain ⟨hlaid, hcore, hused⟩ := h.code.orphan_laid
    exact ⟨⟨hlaid, h.depth, h.codeReady, h.depthReady, h.gate, h.closed, rfl, h.taken⟩,
      Host.books_note_of_not_books _ (by rintro ⟨⟩), hcore, hused, rfl⟩
  · -- nothing is left to leave
    rw [if_neg hparked]
    simp only [Bool.or_eq_true, not_or, Bool.not_eq_true, Option.isSome_eq_false_iff,
      Option.isNone_iff_eq_none, h.sealedEpoch, h.code.hasRetired_eq, Bool.not_eq_false',
      List.isEmpty_iff] at hparked
    obtain ⟨hnone, hretired⟩ := hparked
    obtain ⟨hsealed, -, -⟩ := ho.idle hnone
    have hview : v.abandon = v := by
      obtain ⟨⟨pending, linked, retired, _, orphans, free, gone⟩, depth, gate, _, taken⟩ := v
      obtain rfl : retired = [] := hretired
      simp_all [View.abandon]
    rw [hview]
    exact ⟨h, rfl, fun _ => rfl, rfl, rfl⟩

/-- The writer removes everything, releases what it can, and leaves the rest to the readers. -/
theorem dropWriter_works (h : Sound s sc) (hs : Settled s sc) (hwriter : s.writer = true) :
    ∃ n sc', Works s sc n [] s.dropWriter sc' ∧ Settled s.dropWriter sc' ∧
      sc'.view.registry = .empty ∧ (sc.view.registry = .empty → n = 0) := by
  have ho := h.attended hwriter
  obtain ⟨n, v₁, hwork₁, hcode₁, hdepth₁, hquiet⟩ := Index.clear_works h.index ho
  obtain ⟨v₂, hwork, hcode₂, hdepth₂⟩ := hwork₁.collect ho
  have hcode := hcode₂.trans hcode₁
  have hdepth := hdepth₂.trans hdepth₁
  obtain ⟨hsound, hbooks, hcore, hused, hsame⟩ := abandon_sound hwork.sound (hwork.orderly ho)
  obtain ⟨es, hlead, hdone⟩ := Works.write h hwriter hwork
  have hmove : Scene.Moves { sc with view := v₂ } [] _ :=
    .single (.leave (h.writer.trans hwriter) hcode hdepth)
  have hleft : Works s sc n [] { s with index := s.index.closeWriter, writer := false }
      { sc with view := v₂.abandon, writer := false } := by
    refine ⟨es ++ [], hlead.trans ⟨hmove, ⟨hsound, h.pins, rfl, hmove.orderly hlead.sound.orderly⟩,
      ?_, .of_core hused hcore, ?_⟩, hdone.append .nil⟩
    · exact hbooks.trans (List.append_nil _).symm
    · show Index.Keeps _ _ _ s.index.clear.collect.abandon.depth
      rw [hsame]
      exact .of_core rfl fun _ => rfl
  have hhandle : s.disposed = false := hs.not_disposed (by simp [anyHandle, hwriter])
  obtain ⟨sc', hsettle, hsettled, hreg⟩ := settle_works hleft.sound
    (fun hd => absurd (hhandle.symm.trans hd) Bool.false_ne_true)
  unfold dropWriter
  rw [if_pos hwriter]
  refine ⟨n, sc', hleft.trans hsettle, hsettled, hreg.trans ?_, hquiet⟩
  exact View.registry_empty hcode hdepth

end Session

end JitIndex
