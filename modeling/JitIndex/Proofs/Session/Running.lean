import JitIndex.Proofs.Session.Stepping

/-!
# Runs

A session starts empty and sound, and stays sound for as long as it runs. So
what holds of every scene that moves lead to from the first one holds of every
run (`run_reached`).
-/

namespace JitIndex

open SkipList (Layout Entry Laid ids)

namespace Session

def opening : Scene where
  view := ⟨{}, {}, ⟨false, 0, fun _ => 0, 0⟩, none, 0⟩
  pins := []
  writer := true

theorem start_sound (settings : Settings) (allocator : Allocator) :
    Sound (start settings allocator) opening where
  index :=
    ⟨SkipList.ofSeed_laid _, SkipList.ofSeed_laid _, rfl, rfl, Gate.packs_initial, rfl, rfl, rfl⟩
  pins := rfl
  writer := rfl
  orderly := ⟨fun _ => rfl, fun _ => ⟨fun _ => ⟨rfl, rfl, rfl⟩, by rintro _ ⟨⟩⟩,
    fun h => absurd h.symm Bool.false_ne_true⟩

theorem start_settled (settings : Settings) (allocator : Allocator) :
    Settled (start settings allocator) opening := ⟨rfl, fun hd => absurd hd Bool.false_ne_true⟩

theorem run_leads : ∀ {s : Session} {sc : Scene}, Sound s sc → Settled s sc →
    ∀ cs, ∃ es sc', Leads s sc es (s.run cs) sc' ∧ Settled (s.run cs) sc'
  | s, sc, h, hs, [] => ⟨[], sc, .refl h, hs⟩
  | s, sc, h, hs, c :: cs => by
      obtain ⟨es, sc₁, hstep⟩ := step_stepped h hs c
      obtain ⟨fs, sc', hlead, hsettled⟩ := run_leads hstep.leads.sound hstep.settled cs
      exact ⟨es ++ fs, sc', hstep.leads.trans hlead, hsettled⟩

/-- What a session can come to that once started. -/
structure Reached (settings : Settings) (allocator : Allocator) (s : Session) (sc : Scene) :
    Prop where
  leads : Leads (start settings allocator) opening s.index.host.books s sc
  settled : Settled s sc

theorem Leads.reached {settings : Settings} {allocator : Allocator} {s : Session} {sc : Scene}
    {es : List Event} (h : Leads (start settings allocator) opening es s sc) (hs : Settled s sc) :
    Reached settings allocator s sc := by
  have hbooks : s.index.host.books = es := h.books
  exact ⟨hbooks ▸ h, hs⟩

theorem run_reached (settings : Settings) (allocator : Allocator) (cs : List Command) :
    ∃ sc, Reached settings allocator ((start settings allocator).run cs) sc := by
  obtain ⟨es, sc, hlead, hsettled⟩ :=
    run_leads (start_sound settings allocator) (start_settled settings allocator) cs
  exact ⟨sc, hlead.reached hsettled⟩

/-- One more command. -/
theorem Reached.step {settings : Settings} {allocator : Allocator} {s : Session} {sc : Scene}
    (h : Reached settings allocator s sc) (c : Command) :
    ∃ sc', Reached settings allocator (s.step c).2 sc' ∧
      sc.view.registry.Step s c (s.step c).1 sc'.view.registry := by
  obtain ⟨es, sc', hstep⟩ := step_stepped h.leads.sound h.settled c
  exact ⟨sc', (h.leads.trans hstep.leads).reached hstep.settled, hstep.step⟩

end Session

end JitIndex
