import JitIndex.Proofs.Session.Acting

/-!
# What was registered last

A `History` lists the code regions that were registered on the way to a
session, the last one first. Everything that happens either registers one code
region or leaves no address with one that it did not have before
(`Registry.Step.codeWithin`), so every session that acts lead to has a history
(`acts_history`), and an address that has a code region has the one that was
registered there last (`History.latest`).
-/

namespace JitIndex

/-! ## Commands that register a code region -/

/-- Whether a command registers one code region. -/
def Command.registersCode : Command → Bool
  | .writer (.addCode _) | .writer (.buildCode _ _) => true
  | _ => false

namespace Registry

/-- No address has a code region that it does not have in `m`. -/
def CodeWithin (m' m : Registry) : Prop := ∀ k v, m'.code k = some v → m.code k = some v

theorem CodeWithin.of_eq {m m' : Registry} (h : m'.code = m.code) : m'.CodeWithin m := by
  intro k v hv
  rwa [h] at hv

theorem removeCode_within (m : Registry) (start : Addr) : (m.removeCode start).CodeWithin m := by
  intro k v hv
  have hv : Function.update m.code start none k = some v := hv
  by_cases hk : k = start
  · rw [hk, Function.update_self] at hv
    cases hv
  · rwa [Function.update_of_ne hk] at hv

theorem empty_within (m : Registry) : empty.CodeWithin m := by
  rintro k v ⟨⟩

theorem Writes.codeWithin {m m' : Registry} {s : Session} {command : WriterCommand} {reply : Reply}
    (h : m.Writes s command reply m') (hsingle : (Command.writer command).isSingle = true)
    (hnot : (Command.writer command).registersCode = true → reply ≠ .accepted) :
    m'.CodeWithin m := by
  cases command with
  | addCode region =>
      exact .of_eq (congrArg code (Registers.eq_of_not_accepted h (hnot rfl)))
  | buildCode span steps =>
      simp only [Writes] at h
      split at h
      · exact .of_eq (congrArg code h.2)
      · exact .of_eq (congrArg code (h.eq_of_not_accepted (hnot rfl)))
  | addDepth region =>
      rcases h with ⟨-, -, rfl⟩ | ⟨-, -, rfl⟩
      · exact .of_eq rfl
      · exact .of_eq rfl
  | clearDepths span =>
      obtain ⟨-, rfl⟩ := h
      exact .of_eq rfl
  | freeBlock start stop =>
      obtain ⟨-, rfl⟩ := h
      exact m.removeCode_within start
  | clear =>
      obtain ⟨-, rfl⟩ := h
      exact m.empty_within
  | drop =>
      obtain ⟨-, rfl⟩ := h
      exact m.empty_within
  | settings => exact .of_eq (congrArg code h)
  | text => exact .of_eq (congrArg code h)
  | newReader => exact .of_eq (congrArg code h)
  | fillCode => cases hsingle
  | fillDepth => cases hsingle
  | addDepthMap => cases hsingle
  | removeCode => cases hsingle

/-- By a command that does not register a code region, no address comes to one. -/
theorem Step.codeWithin {m m' : Registry} {s : Session} {c : Command} {reply : Reply}
    (h : m.Step s c reply m') (hsingle : c.isSingle = true)
    (hnot : c.registersCode = true → reply ≠ .accepted) : m'.CodeWithin m := by
  cases c with
  | reader n command => exact .of_eq (congrArg code h.1)
  | pin n command => exact .of_eq (congrArg code h.1)
  | unpinAll => exact .of_eq (congrArg code h.2)
  | writer command =>
      by_cases hwriter : s.writer = true
      · exact ((step_writer hwriter).mp h).codeWithin hsingle hnot
      · exact .of_eq (congrArg code ((step_no_writer hwriter).mp h).2)

end Registry

namespace Session

variable {settings : Settings} {allocator : Allocator} {s : Session}

/-! ## What was registered last -/

theorem step_buildCode (hwriter : s.writer = true) (span : Span) (steps : List BuildStep) :
    s.step (.writer (.buildCode span steps)) =
      match s.recorded span steps with
      | .error f => (.failed f, s)
      | .ok table => s.step (.writer (.addCode ⟨span, table⟩)) := by
  obtain ⟨r, hr⟩ : ∃ r, s.buildAll .empty steps = (r, s) :=
    ⟨_, Prod.ext rfl (buildAll_snd s steps .empty)⟩
  rw [step_writer_eq hwriter]
  unfold stepWriter recorded
  simp only [hr]
  cases r.finish span.size.toNat with
  | error f => rfl
  | ok table => exact (step_writer_eq hwriter (.addCode ⟨span, table⟩)).symm

/-- The code regions that were registered in the acts that lead to a session, the last one first. A
region counts if it was accepted, whatever became of it. -/
inductive History (settings : Settings) (allocator : Allocator) : List CodeRegion → Session → Prop
  | start : History settings allocator [] (start settings allocator)
  | register {rs : List CodeRegion} {s : Session} {region : CodeRegion}
      (h : History settings allocator rs s)
      (haccepted : (s.step (.writer (.addCode region))).1 = .accepted) :
      History settings allocator (region :: rs) (s.step (.writer (.addCode region))).2
  /-- Any act by which no address comes to a code region. -/
  | other {rs : List CodeRegion} {s s' : Session} (h : History settings allocator rs s)
      (hact : Act s s') (hnone : s'.index.registry.CodeWithin s.index.registry) :
      History settings allocator rs s'

theorem History.acts {rs : List CodeRegion} (h : History settings allocator rs s) :
    Acts (Session.start settings allocator) s := by
  induction h with
  | start => exact .refl
  | register _ _ ih => exact ih.tail (.command rfl)
  | other _ hact _ ih => exact ih.tail hact

theorem writer_of_accepted {command : WriterCommand}
    (haccepted : (s.step (.writer command)).1 = .accepted) : s.writer = true := by
  by_contra hwriter
  have hreply : (s.step (.writer command)).1 = .noWriter := by
    show (if s.writer then _ else (Reply.noWriter, s)).1 = _
    rw [if_neg hwriter]
  cases hreply.symm.trans haccepted

/-- To register something is to register one code region. -/
theorem addCode_of_registers {c : Command} (hcode : c.registersCode = true)
    (haccepted : (s.step c).1 = .accepted) :
    ∃ region, (s.step (.writer (.addCode region))).1 = .accepted ∧
      (s.step c).2 = (s.step (.writer (.addCode region))).2 := by
  match c, hcode with
  | .writer (.addCode region), _ => exact ⟨region, haccepted, rfl⟩
  | .writer (.buildCode span steps), _ =>
      have hbuild := step_buildCode (writer_of_accepted haccepted) span steps
      rw [hbuild] at haccepted ⊢
      cases hrecorded : s.recorded span steps with
      | error f =>
          rw [hrecorded] at haccepted
          cases haccepted
      | ok table =>
          rw [hrecorded] at haccepted
          exact ⟨⟨span, table⟩, haccepted, rfl⟩

/-- Whatever led to a session has a history. -/
theorem acts_history (hacts : Acts (start settings allocator) s) :
    ∃ rs, History settings allocator rs s := by
  induction hacts with
  | refl => exact ⟨[], .start⟩
  | @tail t t' hacts hact ih =>
      obtain ⟨rs, h⟩ := ih
      obtain ⟨sc, hreached⟩ := acts_reached settings allocator hacts
      have hindex := hreached.leads.sound.index
      cases hact with
      | @command c hsingle =>
          by_cases hregisters : c.registersCode = true ∧ (t.step c).1 = .accepted
          · obtain ⟨region, haccepted, heq⟩ := addCode_of_registers hregisters.1 hregisters.2
            exact ⟨region :: rs, heq ▸ .register h haccepted⟩
          · obtain ⟨sc', hreached', hstep⟩ := hreached.step c
            have hnone := hstep.codeWithin hsingle fun hcode haccepted =>
              hregisters ⟨hcode, haccepted⟩
            rw [← hindex.registry_eq, ← hreached'.leads.sound.index.registry_eq] at hnone
            exact ⟨rs, .other h (.command hsingle) hnone⟩
      | unlink hwriter start =>
          refine ⟨rs, .other h (.unlink hwriter start) ?_⟩
          obtain ⟨n, w, hwork, hreg⟩ := Index.unlinkCode_works hindex start
          rw [hwork.sound.registry_eq, hreg, hindex.registry_eq]
          exact Registry.removeCode_within _ start
      | poll hwriter id =>
          refine ⟨rs, .other h (.poll hwriter id) ?_⟩
          obtain ⟨es, released, w, hlead, hcol, -⟩ := Index.collectKeeping_spec t.index (some id)
            hindex (hreached.leads.sound.attended hwriter)
          have hsame : (t.index.pollRemoval id).2.registry = t.index.registry := by
            rw [hindex.registry_eq]
            exact hlead.sound.registry_eq.trans
              (View.registry_congr hcol.codeLinked hcol.depthLinked)
          rw [hsame]
          exact fun _ _ hv => hv
      | log hwriter he => exact ⟨rs, .other h (.log hwriter he) fun _ _ hv => hv⟩

/-- An address has the code region that was registered there last, if it has one. -/
theorem History.latest {rs : List CodeRegion} (h : History settings allocator rs s) : ∀ {k v},
    s.index.registry.code k = some v →
      rs.find? (fun r => r.start == k) = some ⟨⟨k, v.1⟩, v.2⟩ := by
  induction h with
  | start => rintro k v ⟨⟩
  | @register rs s region h haccepted ih =>
      intro k v hv
      obtain ⟨sc, hreached⟩ := acts_reached settings allocator h.acts
      obtain ⟨es, sc', hstepped⟩ :=
        step_stepped hreached.leads.sound hreached.settled (.writer (.addCode region))
      have hstep := hstepped.step
      rw [← hreached.leads.sound.index.registry_eq, ← hstepped.leads.sound.index.registry_eq,
        haccepted] at hstep
      have hadded : (s.step (.writer (.addCode region))).2.index.registry =
          s.index.registry.addCode region := by
        rw [Registry.step_writer (writer_of_accepted haccepted)] at hstep
        exact Registry.Registers.eq_of_accepted hstep
      rw [hadded] at hv
      have hv : Function.update s.index.registry.code region.start
          (some (region.size, region.table)) k = some v := hv
      rw [List.find?_cons]
      by_cases hk : k = region.start
      · subst hk
        rw [Function.update_self] at hv
        rw [← Option.some.inj hv]
        simp
      · rw [Function.update_of_ne hk] at hv
        simp only [show (region.start == k) = false by simpa using Ne.symm hk]
        exact ih hv
  | other h hact hnone ih => exact fun hv => ih (hnone _ _ hv)

end Session

end JitIndex
