import JitIndex.Proofs.Session.Running

/-!
# An index is two finite maps

Whatever happened to an index, and whatever memory it was refused, its users
can think of it as a `Registry`: look-ups answer what is registered, and each
command updates the registry as `Registry.Step` says. Heights, slots, epochs
and readers make no difference.
-/

namespace JitIndex

namespace Session

/-- An index starts with nothing registered, its look-ups show what is registered, and each
command does to that what it owes to its users. -/
theorem run_shows_registry (settings : Settings) (allocator : Allocator) :
    (start settings allocator).index.registry = .empty ∧
    ∀ cs, ((start settings allocator).run cs).index.Shows
        ((start settings allocator).run cs).index.registry ∧
      ∀ c, ((start settings allocator).run cs).index.registry.Step
        ((start settings allocator).run cs) c
        (((start settings allocator).run cs).step c).1
        (((start settings allocator).run cs).step c).2.index.registry := by
  refine ⟨?_, fun cs => ?_⟩
  · rw [(start_sound settings allocator).index.registry_eq]
    exact View.registry_empty rfl rfl
  · obtain ⟨sc, hreached⟩ := run_reached settings allocator cs
    have hsound := hreached.leads.sound
    refine ⟨hsound.index.shows, fun c => ?_⟩
    obtain ⟨es, sc', hstep⟩ := step_stepped hsound hreached.settled c
    rw [hsound.index.registry_eq, hstep.leads.sound.index.registry_eq]
    exact hstep.step

end Session

end JitIndex
