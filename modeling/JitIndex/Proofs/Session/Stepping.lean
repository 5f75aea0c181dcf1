import JitIndex.Proofs.Session.Contract
import JitIndex.Proofs.Session.Removing

/-!
# One command

Every command leads a sound session to a sound session, does to the registry
what it owes to its users, and takes over and hands back the frame tables that
it should (`Stepped`). There is one lemma for each kind of handle; a command of
the writer is one operation of the index, and the lemmas about those do the
work.
-/

namespace JitIndex

open SkipList (Layout Entry Laid ids)

namespace Session

variable {s s' : Session} {sc sc' : Scene} {c : Command} {reply : Reply}

/-- What became of a session by a command. -/
structure Stepped (s : Session) (sc : Scene) (c : Command) (reply : Reply) (es : List Event)
    (s' : Session) (sc' : Scene) : Prop where
  leads : Leads s sc es s' sc'
  settled : Settled s' sc'
  step : sc.view.registry.Step s c reply sc'.view.registry
  work : ∃ n, Work es n (s.offered c reply) (s.handedBack c reply) ∧
    (sc.view.registry.Quiet c reply → n = 0) ∧ (n = 0 ∨ s'.pins.size = s.pins.size)

/-- A command after which everything is as before. -/
theorem Stays.stepped (hstay : Stays s sc s')
    (hstep : sc.view.registry.Step s c reply sc.view.registry)
    (hoffered : s.offered c reply = []) (hback : s.handedBack c reply = []) :
    ∃ es sc', Stepped s sc c reply es s' sc' := by
  obtain ⟨sc', ⟨es, hlead, hwork⟩, hsettled, hreg⟩ := hstay
  refine ⟨es, sc', hlead, hsettled, hreg ▸ hstep, 0, ?_, fun _ => rfl, Or.inl rfl⟩
  rw [hoffered, hback]
  exact hwork

theorem Settled.write (hs : Settled s sc) (hwriter : s.writer = true) (hwriter' : s'.writer = true)
    (hdisposed : s'.disposed = s.disposed) (sc' : Scene) : Settled s' sc' := by
  have hhandle : s.anyHandle = true := by simp [anyHandle, hwriter]
  have hhandle' : s'.anyHandle = true := by simp [anyHandle, hwriter']
  have hfalse := hdisposed.trans (hs.not_disposed hhandle)
  exact ⟨by rw [hfalse, hhandle']; rfl, fun hd => absurd (hfalse.symm.trans hd) Bool.false_ne_true⟩

theorem Settled.setIndex (hs : Settled s sc) (hwriter : s.writer = true) (ix : Index)
    (sc' : Scene) : Settled { s with index := ix } sc' := by
  refine hs.write hwriter ?_ ?_ sc'
  · exact hwriter
  · rfl

theorem stays_refl (h : Sound s sc) (hs : Settled s sc) : Stays s sc s := ⟨sc, .refl h, hs, rfl⟩

/-! ## Readers -/

/-- The gate counts the readers that are pinned in the current epoch. -/
theorem crowd_eq (h : Sound s sc) : s.crowd = sc.view.gate.readers sc.view.gate.epoch := by
  unfold crowd
  rw [h.readers_eq, h.index.gate.epoch_eq]
  simp only [Option.any_map]

/-- A reading answers what the index holds, unless the current epoch is full. -/
theorem reading_cases (h : Sound s sc) {β : Type} (look : Index → β)
    (hlook : ∀ g, look { s.index with gate := g } = look s.index) :
    s.crowd < 2 ^ 16 - 1 ∧ (s.index.reading look).1 = .ok (look s.index) ∨
      2 ^ 16 - 1 ≤ s.crowd ∧ (s.index.reading look).1 = .error .invalidated := by
  have hpin := Index.pin?_isSome_iff h.index
  rw [← crowd_eq h] at hpin
  rw [Index.reading_eq h.index look hlook]
  by_cases hroom : s.index.pin?.isSome = true
  · exact Or.inl ⟨hpin.mp hroom, if_pos hroom⟩
  · exact Or.inr ⟨Nat.le_of_not_lt fun hlt => hroom (hpin.mpr hlt), if_neg hroom⟩

theorem answersReader (h : Sound s sc) (n : Nat) (command : ReaderCommand) :
    sc.view.registry.AnswersReader s command (s.stepReader n command).1 := by
  have hshows := h.index.shows
  rw [h.index.registry_eq] at hshows
  cases command with
  | traceback a =>
      have hcases := reading_cases h
        (fun ix => ((ix.codeAt? a).map (·.framesAt a)).getD []) fun _ => rfl
      rcases hcases with ⟨hroom, hok⟩ | ⟨hfull, herror⟩
      · refine Or.inr ⟨hroom, s.index.codeAt? a, hshows.codeAt a, ?_⟩
        show replyOf (s.index.traceback a).1 _ = _
        rw [Index.traceback, hok]
        rfl
      · refine Or.inl ⟨hfull, ?_⟩
        show replyOf (s.index.traceback a).1 _ = _
        rw [Index.traceback, herror]
        rfl
  | depthAt a =>
      have hcases := reading_cases h (fun ix => (ix.depthRegionAt? a).map (·.depth)) fun _ => rfl
      rcases hcases with ⟨hroom, hok⟩ | ⟨hfull, herror⟩
      · refine Or.inr ⟨hroom, s.index.depthRegionAt? a, hshows.depthRegionAt a, ?_⟩
        show replyOf (s.index.depthAt a).1 _ = _
        rw [Index.depthAt, hok]
        rfl
      · refine Or.inl ⟨hfull, ?_⟩
        show replyOf (s.index.depthAt a).1 _ = _
        rw [Index.depthAt, herror]
        rfl
  | isOpen => trivial
  | text => trivial
  | clone => trivial
  | drop => trivial
  | pin => trivial
  | pinMany count => trivial

theorem addReader_stays (h : Sound s sc) (hs : Settled s sc) (hhandle : s.anyHandle = true) :
    Stays s sc s.addReader.2 :=
  stays_of_same h hs rfl rfl rfl rfl hhandle (by simp [anyHandle, addReader])

theorem takePins_stays (h : Sound s sc) (hs : Settled s sc) (hhandle : s.anyHandle = true)
    (count : Nat) : Stays s sc (s.takePins count) := by
  obtain ⟨sc', hwork, hreg, hdisposed, hhandle'⟩ := takePins_works count h hhandle
  have hfalse := hdisposed.trans (hs.not_disposed hhandle)
  refine ⟨sc', hwork, ⟨?_, fun hd => absurd (hfalse.symm.trans hd) Bool.false_ne_true⟩, hreg⟩
  rw [hfalse, hhandle']
  rfl

theorem stepReader_stays (h : Sound s sc) (hs : Settled s sc) {n : Nat}
    (hreader : s.hasReader n = true) (command : ReaderCommand) :
    Stays s sc (s.stepReader n command).2 := by
  have hhandle := anyHandle_of_reader hreader
  cases command with
  | traceback a =>
      show Stays s sc { s with index := (s.index.traceback a).2 }
      rw [Index.traceback, Index.reading_snd]
      exact stays_refl h hs
  | depthAt a =>
      show Stays s sc { s with index := (s.index.depthAt a).2 }
      rw [Index.depthAt, Index.reading_snd]
      exact stays_refl h hs
  | isOpen => exact stays_refl h hs
  | text => exact stays_refl h hs
  | clone => exact addReader_stays h hs hhandle
  | drop => exact dropReader_works h hs hreader
  | pin =>
      have hone := takePins_stays h hs hhandle 1
      unfold takePins at hone
      unfold stepReader
      dsimp only
      split
      · rename_i s' htake
        rwa [htake] at hone
      · rename_i s' htake
        rwa [htake] at hone
  | pinMany count => exact takePins_stays h hs hhandle count

/-! ## Pins -/

theorem isSome_codeSlotAt? (ix : Index) (a : Addr) :
    (ix.codeSlotAt? a).isSome = (ix.codeAt? a).isSome := by
  unfold Index.codeSlotAt? Index.codeAt?
  rw [Option.isSome_map, Option.filter_map, Option.isSome_map]
  rfl

theorem answersPin (h : Sound s sc) (n : Nat) (p : HeldPin) (command : PinCommand) :
    sc.view.registry.AnswersPin command (s.stepPin n p command).1 := by
  have hshows := h.index.shows
  rw [h.index.registry_eq] at hshows
  cases command with
  | find a => exact ⟨_, hshows.codeAt a, rfl⟩
  | hold a => exact ⟨_, hshows.codeAt a, congrArg Reply.flag (isSome_codeSlotAt? s.index a)⟩
  | held a => trivial
  | firstCode => exact ⟨_, hshows.firstCode, rfl⟩
  | codeRegions => exact ⟨_, hshows.codeRegions, rfl⟩
  | depthRegions => exact ⟨_, hshows.depthRegions, rfl⟩
  | depthAt a => exact ⟨_, hshows.depthRegionAt a, rfl⟩
  | depthRegionAt a => exact ⟨_, hshows.depthRegionAt a, rfl⟩
  | isCurrent => trivial
  | text => trivial
  | finish => trivial
  | unpin => trivial

/-- A pin that keeps another region at hand is the same pin. -/
theorem hold_stays (h : Sound s sc) (hs : Settled s sc) {n : Nat} {p : HeldPin}
    (hpin : s.pin? n = some p) (held : Option SlotId) :
    Stays s sc { s with pins := s.pins.setIfInBounds n (some { p with held }) } := by
  have hget : s.pins[n]? = some (some p) := Option.join_eq_some_iff.mp hpin
  obtain ⟨hn, hat⟩ := Array.getElem?_eq_some_iff.mp hget
  refine stays_of_same h hs rfl ?_ rfl rfl (anyHandle_of_pin hpin) ?_
  · have hsame : (s.pins.toList.map (Option.map HeldPin.pin))[n]? = some (some p.pin) := by
      rw [List.getElem?_map, Array.getElem?_toList, hget]
      rfl
    show (s.pins.setIfInBounds n _).toList.map _ = _
    rw [Array.toList_setIfInBounds, List.map_set]
    obtain ⟨hlt, hval⟩ := List.getElem?_eq_some_iff.mp hsame
    show List.set _ n (some p.pin) = _
    rw [← hval, List.set_getElem_self]
  · refine anyHandle_of_pin (n := n) (p := { p with held }) ?_
    simp [pin?, hn]

theorem stepPin_stays (h : Sound s sc) (hs : Settled s sc) {n : Nat} {p : HeldPin}
    (hpin : s.pin? n = some p) (command : PinCommand) : Stays s sc (s.stepPin n p command).2 := by
  cases command with
  | hold a => exact hold_stays h hs hpin _
  | finish => exact dropPin_works h hs hpin
  | unpin => exact dropPin_works h hs hpin
  | find a => exact stays_refl h hs
  | held a => exact stays_refl h hs
  | firstCode => exact stays_refl h hs
  | codeRegions => exact stays_refl h hs
  | depthRegions => exact stays_refl h hs
  | depthAt a => exact stays_refl h hs
  | depthRegionAt a => exact stays_refl h hs
  | isCurrent => exact stays_refl h hs
  | text => exact stays_refl h hs

/-! ## The writer -/

theorem operation_stepped (h : Sound s sc) (hs : Settled s sc) (hwriter : s.writer = true)
    {command : WriterCommand} {n : Nat} {ts : List FrameTable} {ix : Index} {v : View}
    (hwork : s.index.Works sc.view n ts ix v)
    (hstep : sc.view.registry.Writes s command reply v.registry)
    (hoffered : s.offered (.writer command) reply = ts)
    (hback : s.handedBack (.writer command) reply = [])
    (hquiet : sc.view.registry.Quiet (.writer command) reply → n = 0) :
    ∃ es sc', Stepped s sc (.writer command) reply es { s with index := ix } sc' := by
  obtain ⟨es, hlead, hdone⟩ := Works.write h hwriter hwork
  refine ⟨es, { sc with view := v }, hlead, hs.setIndex hwriter ix _,
    (Registry.step_writer hwriter).mpr hstep, n, ?_, hquiet, Or.inr rfl⟩
  rw [hoffered, hback]
  exact hdone

/-- A region is registered if there is room for it, and refused without a trace if there is none. -/
theorem add_registers (h : Sound s sc) (hwriter : s.writer = true) (r : Registration)
    {added : Registry} {ts : List FrameTable}
    (hworks : (∃ ix v, s.index.add r = (.error .allocation, ix) ∧
        s.index.Works sc.view 0 ts ix v ∧ v.registry = sc.view.registry) ∨
      ∃ ix v, s.index.add r = (.ok (), ix) ∧ s.index.Works sc.view 1 ts ix v ∧
        v.registry = added) :
    ∃ v n, s.index.Works sc.view n ts (s.index.add r).2 v ∧
      sc.view.registry.Registers (r.HasRoom s.index.collect) added
        (accepted (s.index.add r).1) v.registry ∧
      (accepted (s.index.add r).1 ≠ .accepted → n = 0) := by
  have hroom := Index.add_ok_iff h.index (h.attended hwriter) r
  rcases hworks with ⟨ix, v, hrun, hwork, hreg⟩ | ⟨ix, v, hrun, hwork, hreg⟩ <;>
    rw [hrun] at hroom ⊢
  · refine ⟨v, 0, hwork, Or.inr ⟨fun hthere => ?_, rfl, hreg⟩, fun _ => rfl⟩
    cases hroom.mpr hthere
  · exact ⟨v, 1, hwork, Or.inl ⟨hroom.mp rfl, rfl, hreg⟩, fun hq => absurd rfl hq⟩

theorem addCode_stepped (h : Sound s sc) (hs : Settled s sc) (hwriter : s.writer = true)
    (region : CodeRegion) : ∃ es sc', Stepped s sc (.writer (.addCode region))
      (accepted (s.index.addCode region).1) es
      { s with index := (s.index.addCode region).2 } sc' := by
  have hoffered : ∀ reply, s.offered (.writer (.addCode region)) reply = [region.table] :=
    fun _ => if_pos hwriter
  obtain ⟨v, n, hwork, hregisters, hquiet⟩ := add_registers h hwriter (.code region)
    (Index.addCode_works h.index (h.attended hwriter) region)
  exact operation_stepped h hs hwriter hwork hregisters (hoffered _) rfl hquiet

theorem buildAll_snd (s : Session) (steps : List BuildStep) :
    ∀ r : FrameRecorder, (s.buildAll r steps).2 = s := by
  induction steps with
  | nil => exact fun _ => rfl
  | cons step steps ih =>
      intro r
      have hstep : ∃ r', s.build r step = (r', s) := by
        cases step with
        | report step => exact ⟨_, rfl⟩
        | inheritAt a =>
            have hsame : (s.index.traceback a).2 = s.index := Index.reading_snd ..
            unfold build
            obtain ⟨answer, hread⟩ : ∃ answer, s.index.traceback a = (answer, s.index) :=
              ⟨_, Prod.ext rfl hsame⟩
            dsimp only
            rw [hread]
            cases answer <;> exact ⟨_, rfl⟩
      obtain ⟨r', hbuild⟩ := hstep
      unfold buildAll
      rw [hbuild]
      exact ih r'

theorem buildCode_stepped (h : Sound s sc) (hs : Settled s sc) (hwriter : s.writer = true)
    (span : Span) (steps : List BuildStep) :
    ∃ es sc', Stepped s sc (.writer (.buildCode span steps))
      (s.stepWriter (.buildCode span steps)).1 es
      (s.stepWriter (.buildCode span steps)).2 sc' := by
  have hbuilt := buildAll_snd s steps .empty
  have hoffered : ∀ reply, s.offered (.writer (.buildCode span steps)) reply =
      (s.recorded span steps).toOption.toList := fun _ => if_pos hwriter
  unfold stepWriter
  obtain ⟨r, hr⟩ : ∃ r, s.buildAll .empty steps = (r, s) := ⟨_, Prod.ext rfl hbuilt⟩
  have hrecorded : s.recorded span steps = r.finish span.size.toNat := by
    unfold recorded
    rw [hr]
  simp only [hr]
  cases hfinish : r.finish span.size.toNat with
  | error f =>
      rw [hrecorded, hfinish] at hoffered
      refine operation_stepped h hs hwriter (.refl h.index) ?_ (hoffered _) rfl fun _ => rfl
      rw [Registry.Writes, hrecorded, hfinish]
      exact ⟨rfl, rfl⟩
  | ok table =>
      rw [hrecorded, hfinish] at hoffered
      obtain ⟨v, n, hwork, hregisters, hquiet⟩ := add_registers h hwriter (.code ⟨span, table⟩)
        (Index.addCode_works h.index (h.attended hwriter) ⟨span, table⟩)
      refine operation_stepped h hs hwriter hwork ?_ (hoffered _) rfl hquiet
      rw [Registry.Writes, hrecorded, hfinish]
      exact hregisters

theorem fillCode_stepped (h : Sound s sc) (hs : Settled s sc) (hwriter : s.writer = true)
    (first : Span) (stride : Addr) (count : Nat) :
    ∃ es sc', Stepped s sc (.writer (.fillCode first stride count))
      (s.stepWriter (.fillCode first stride count)).1 es
      (s.stepWriter (.fillCode first stride count)).2 sc' := by
  obtain ⟨n, ix, v, hrun, hle, haccepts, hwork, hreg⟩ := Index.fill_works
    (fun place => .code (filledCode place.1 place.2))
    (fun m place => m.addCode (filledCode place.1 place.2))
    (fun place => [(filledCode place.1 place.2).table]) stride
    (fun place h ho => Index.addCode_works h ho (filledCode place.1 place.2)) count 0 first h.index
    (h.attended hwriter)
  rw [Nat.zero_add] at hrun
  unfold stepWriter
  simp only [Index.add] at hrun
  simp only [hrun]
  refine operation_stepped h hs hwriter hwork ⟨n, hle, rfl, haccepts, hreg⟩ ?_ rfl fun hq => ?_
  · exact List.map_eq_flatMap
  · exact Reply.number.inj hq

theorem fillDepth_stepped (h : Sound s sc) (hs : Settled s sc) (hwriter : s.writer = true)
    (first : Span) (stride : Addr) (count : Nat) :
    ∃ es sc', Stepped s sc (.writer (.fillDepth first stride count))
      (s.stepWriter (.fillDepth first stride count)).1 es
      (s.stepWriter (.fillDepth first stride count)).2 sc' := by
  obtain ⟨n, ix, v, hrun, hle, haccepts, hwork, hreg⟩ := Index.fill_works
    (fun place => .depth (filledDepth place.1 place.2))
    (fun m place => m.addDepth (filledDepth place.1 place.2)) (fun _ => []) stride
    (fun place h ho => Index.addDepth_works h ho (filledDepth place.1 place.2)) count 0 first
    h.index (h.attended hwriter)
  rw [Nat.zero_add] at hrun
  unfold stepWriter
  simp only [Index.add] at hrun
  simp only [hrun]
  refine operation_stepped h hs hwriter hwork ⟨n, hle, rfl, haccepts, hreg⟩ ?_ rfl fun hq => ?_
  · simp [offered]
  · exact Reply.number.inj hq

theorem removeCode_stepped (h : Sound s sc) (hs : Settled s sc) (hwriter : s.writer = true)
    (start : Addr) (releaseAfter : Option Nat) :
    ∃ es sc', Stepped s sc (.writer (.removeCode start releaseAfter))
      (s.removeCode start releaseAfter).1 es (s.removeCode start releaseAfter).2 sc' := by
  have hregistry : sc.view.registry.code start =
      (s.index.code.get? start).map fun e => (e.payload.size, e.payload.owned.table) := by
    rw [← h.index.registry_eq]
    rfl
  have hstay : ∀ {reply}, sc.view.registry.Writes s (.removeCode start releaseAfter) reply
      sc.view.registry → s.handedBack (.writer (.removeCode start releaseAfter)) reply = [] →
      ∃ es sc', Stepped s sc (.writer (.removeCode start releaseAfter)) reply es s sc' :=
    fun hstep hback =>
      (stays_refl h hs).stepped ((Registry.step_writer hwriter).mpr hstep) rfl hback
  rcases removeCode_works h hwriter start releaseAfter with
    ⟨hnone, hrun⟩ | ⟨e, hsome, ⟨hblocked, hrun⟩ | ⟨hfree, hints, s', sc', es, hrun, hlead, hwork,
      hwriter', hdisposed, hpins, hreg⟩⟩ <;> rw [hrun]
  · refine hstay ?_ rfl
    rw [Registry.Writes, hregistry, hnone]
    exact ⟨rfl, rfl⟩
  · refine hstay ?_ rfl
    rw [Registry.Writes, hregistry, hsome]
    show if _ then _ else _
    rw [if_pos hblocked]
    exact ⟨rfl, rfl⟩
  · refine ⟨es, sc', hlead, hs.write hwriter hwriter' hdisposed _, ?_, 1, ?_, ?_, Or.inr hpins⟩
    · rw [Registry.step_writer hwriter, Registry.Writes, hregistry, hsome]
      show if _ then _ else _
      rw [if_neg hfree]
      exact ⟨hints, rfl, hreg⟩
    · have hback : s.handedBack (.writer (.removeCode start releaseAfter))
          (.removed e.payload.owned.table hints) = [e.payload.owned] := by
        show ((s.index.code.get? start).map fun e => e.payload.owned).toList = _
        rw [hsome]
        rfl
      rw [hback]
      exact hwork
    · rintro (hq | hq) <;> cases hq

theorem stepWriter_stepped (h : Sound s sc) (hs : Settled s sc) (hwriter : s.writer = true)
    (command : WriterCommand) : ∃ es sc', Stepped s sc (.writer command)
      (s.stepWriter command).1 es (s.stepWriter command).2 sc' := by
  have ho := h.attended hwriter
  have hstay : ∀ {command s' reply}, Stays s sc s' →
      sc.view.registry.Writes s command reply sc.view.registry →
      s.offered (.writer command) reply = [] → s.handedBack (.writer command) reply = [] →
      ∃ es sc', Stepped s sc (.writer command) reply es s' sc' :=
    fun hstay hstep => hstay.stepped ((Registry.step_writer hwriter).mpr hstep)
  cases command with
  | addCode region => exact addCode_stepped h hs hwriter region
  | buildCode span steps => exact buildCode_stepped h hs hwriter span steps
  | fillCode first stride count => exact fillCode_stepped h hs hwriter first stride count
  | fillDepth first stride count => exact fillDepth_stepped h hs hwriter first stride count
  | removeCode start releaseAfter => exact removeCode_stepped h hs hwriter start releaseAfter
  | addDepth region =>
      obtain ⟨v, n, hwork, hregisters, hquiet⟩ := add_registers h hwriter (.depth region)
        (Index.addDepth_works h.index ho region)
      exact operation_stepped h hs hwriter hwork hregisters rfl rfl hquiet
  | clearDepths span =>
      obtain ⟨ix, v, n, hrun, hwork, hquiet, hreg⟩ := Index.clearDepths_works h.index ho span
      unfold stepWriter
      simp only [hrun]
      exact operation_stepped h hs hwriter hwork ⟨rfl, hreg⟩ rfl rfl hquiet
  | addDepthMap start stop changes =>
      obtain ⟨answer, ix, v, n, hrun, hwork, haccepts, hreg, hanswer⟩ :=
        Index.addDepthsDown_works start changes.reverse stop h.index ho
      unfold stepWriter
      simp only [Index.addDepthMap, hrun]
      have hquiet : Registry.depthRuns start stop changes.reverse = [] → n = 0 := by
        intro hq
        rw [hq, List.length_nil] at hanswer
        omega
      refine operation_stepped h hs hwriter hwork ⟨n, haccepts, hreg, ?_⟩ rfl rfl hquiet
      rcases hanswer with ⟨rfl, hall⟩ | ⟨rfl, hlt⟩
      · exact Or.inl ⟨rfl, hall⟩
      · exact Or.inr ⟨rfl, hlt⟩
  | freeBlock start stop =>
      obtain ⟨n, v, hwork, hreg⟩ := Index.freeBlock_works h.index ho start stop
      exact operation_stepped h hs hwriter hwork ⟨rfl, hreg⟩ rfl rfl (by rintro ⟨⟩)
  | clear =>
      obtain ⟨n, v, hwork, hcode, hdepth, hquiet⟩ := Index.clear_works h.index ho
      exact operation_stepped h hs hwriter hwork ⟨rfl, View.registry_empty hcode hdepth⟩ rfl rfl
        hquiet
  | drop =>
      obtain ⟨n, sc', ⟨es, hlead, hwork⟩, hsettled, hreg, hquiet⟩ := dropWriter_works h hs hwriter
      refine ⟨es, sc', hlead, hsettled, (Registry.step_writer hwriter).mpr ⟨rfl, hreg⟩, n, hwork,
        hquiet, Or.inr ?_⟩
      · show s.dropWriter.pins.size = s.pins.size
        unfold dropWriter settle
        rw [if_pos hwriter]
        split <;> rfl
  | settings => exact hstay (stays_refl h hs) rfl rfl rfl
  | text => exact hstay (stays_refl h hs) rfl rfl rfl
  | newReader =>
      exact hstay (addReader_stays h hs (by simp [anyHandle, hwriter])) rfl rfl rfl

/-! ## Any command -/

theorem step_writer_eq (hwriter : s.writer = true) (command : WriterCommand) :
    s.step (.writer command) = s.stepWriter command := if_pos hwriter

theorem step_stepped (h : Sound s sc) (hs : Settled s sc) (c : Command) :
    ∃ es sc', Stepped s sc c (s.step c).1 es (s.step c).2 sc' := by
  cases c with
  | reader n command =>
      unfold step
      dsimp only
      by_cases hreader : s.hasReader n = true
      · rw [if_pos hreader]
        refine (stepReader_stays h hs hreader command).stepped ⟨rfl, ?_⟩ rfl rfl
        rw [if_pos hreader]
        exact answersReader h n command
      · rw [if_neg hreader]
        refine (stays_refl h hs).stepped ⟨rfl, ?_⟩ rfl rfl
        rw [if_neg hreader]
  | pin n command =>
      unfold step
      dsimp only
      cases hpin : s.pin? n with
      | none =>
          refine (stays_refl h hs).stepped ⟨rfl, ?_⟩ rfl rfl
          rw [hpin]
          rfl
      | some p =>
          refine (stepPin_stays h hs hpin command).stepped ⟨rfl, ?_⟩ rfl rfl
          rw [hpin]
          exact answersPin h n p command
  | unpinAll => exact (dropPins_works h hs).stepped ⟨rfl, rfl⟩ rfl rfl
  | writer command =>
      by_cases hwriter : s.writer = true
      · rw [step_writer_eq hwriter]
        exact stepWriter_stepped h hs hwriter command
      · unfold step
        dsimp only
        rw [if_neg hwriter]
        refine (stays_refl h hs).stepped ?_ ?_ ?_
        · show if s.writer = true then _ else _
          rw [if_neg hwriter]
          exact ⟨rfl, rfl⟩
        · unfold offered
          cases command <;> simp [hwriter]
        · unfold handedBack
          cases command <;> rfl

end Session

end JitIndex
