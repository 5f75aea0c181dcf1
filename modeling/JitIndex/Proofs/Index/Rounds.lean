import JitIndex.Proofs.Index.Collecting

/-!
# The rounds of a collection

A collection goes round a loop. In one round it releases what is sealed, or
seals what is retired, and neither can happen twice in a row without the other:
`movesLeft` goes down, so there are at most three rounds (`Rounds.bound`). The
loop is left when no further round is possible (`collectKeeping_rounds`), and
not before.

`Unparked` is an index in which nothing waits to be released. It is what a
collection leaves if nobody reads (`collectKeeping_unparked`). What is free
stays free through a collection, so what its first round releases is free when
it ends (`collectKeeping_frees`).
-/

namespace JitIndex

open SkipList (Layout Entry Laid ids)

namespace Index

variable {ix ix' : Index} {v : View} {keep : Option SlotId} {n : Nat}

/-! ## Rounds -/

/-- One round of a collection. -/
inductive Round (keep : Option SlotId) (ix : Index) : Index → Prop
  | release {epoch : Epoch} (hsealed : ix.sealedEpoch = some epoch)
      (hdrained : ix.gate.hasDrained epoch = true) : Round keep ix (ix.release epoch keep).2
  | turn (hnone : ix.sealedEpoch = none) (hretired : ix.hasRetired = true) :
      Round keep ix ix.sealRetired

/-- So many rounds, one after the other. -/
inductive Rounds (keep : Option SlotId) : Nat → Index → Index → Prop
  | refl (ix : Index) : Rounds keep 0 ix ix
  | head {n : Nat} {ix ix' ix'' : Index} (h : Round keep ix ix') (hrest : Rounds keep n ix' ix'') :
      Rounds keep (n + 1) ix ix''

theorem Round.movesLeft_lt (h : Round keep ix ix') : ix'.movesLeft < ix.movesLeft := by
  cases h with
  | release hsealed _ => exact movesLeft_release ix keep hsealed
  | turn hnone hretired => exact movesLeft_sealRetired ix hnone hretired

theorem Rounds.movesLeft_le (h : Rounds keep n ix ix') : n + ix'.movesLeft ≤ ix.movesLeft := by
  induction h with
  | refl => omega
  | head hround _ ih =>
      have hless := hround.movesLeft_lt
      omega

/-- However a collection goes, it does not go round more than three times. -/
theorem Rounds.bound (h : Rounds keep n ix ix') : n ≤ 3 := by
  have hle := h.movesLeft_le
  have hmost : ix.movesLeft ≤ 3 := by
    unfold movesLeft
    split <;> split <;> omega
  omega

/-- A collection goes round until it can go no further. -/
theorem collectKeeping_rounds (ix : Index) (keep : Option SlotId) :
    (∃ n, Rounds keep n ix (ix.collectKeeping keep).2) ∧
      ∀ ix', ¬ Round keep (ix.collectKeeping keep).2 ix' := by
  induction ix using collectKeeping.induct keep with
  | case1 ix epoch hsealed hdrained released ih =>
      obtain ⟨⟨n, hrounds⟩, hlast⟩ := ih
      rw [collectKeeping_release keep hsealed hdrained]
      exact ⟨⟨n + 1, .head (.release hsealed hdrained) hrounds⟩, hlast⟩
  | case2 ix epoch hsealed hdrained =>
      rw [collectKeeping_blocked keep hsealed hdrained]
      refine ⟨⟨0, .refl ix⟩, ?_⟩
      rintro _ (⟨hsealed', hdrained'⟩ | ⟨hnone, -⟩)
      · cases hsealed.symm.trans hsealed'
        exact hdrained hdrained'
      · cases hsealed.symm.trans hnone
  | case3 ix hnone hretired ih =>
      obtain ⟨⟨n, hrounds⟩, hlast⟩ := ih
      rw [collectKeeping_turn keep hnone hretired]
      exact ⟨⟨n + 1, .head (.turn hnone hretired) hrounds⟩, hlast⟩
  | case4 ix hnone hretired =>
      rw [collectKeeping_idle keep hnone hretired]
      refine ⟨⟨0, .refl ix⟩, ?_⟩
      rintro _ (⟨hsealed, -⟩ | ⟨-, hretired'⟩)
      · cases hnone.symm.trans hsealed
      · exact hretired hretired'

/-! ## Nothing to release -/

/-- Nothing waits to be released, and no epoch is waited for. -/
structure Unparked (ix : Index) : Prop where
  sealedEpoch : ix.sealedEpoch = none
  codeRetired : ix.code.hasRetired = false
  codeSealed : ix.code.hasSealed = false
  depthRetired : ix.depth.hasRetired = false
  depthSealed : ix.depth.hasSealed = false

theorem Sound.unparked_iff (h : Sound ix v) : ix.Unparked ↔ v.sealedEpoch = none ∧
    (v.code.retired = [] ∧ v.code.sealed = []) ∧ v.depth.retired = [] ∧ v.depth.sealed = [] := by
  have hempty : ∀ {α : Type} (es : List (Entry α)), (!es.isEmpty) = false ↔ es = [] := by
    intro α es
    cases es <;> simp
  constructor
  · rintro ⟨hnone, hcodeRetired, hcodeSealed, hdepthRetired, hdepthSealed⟩
    rw [h.code.hasRetired_eq, hempty] at hcodeRetired
    rw [h.code.hasSealed_eq, hempty] at hcodeSealed
    rw [h.depth.hasRetired_eq, hempty] at hdepthRetired
    rw [h.depth.hasSealed_eq, hempty] at hdepthSealed
    exact ⟨h.sealedEpoch ▸ hnone, ⟨hcodeRetired, hcodeSealed⟩, hdepthRetired, hdepthSealed⟩
  · rintro ⟨hnone, ⟨hcodeRetired, hcodeSealed⟩, hdepthRetired, hdepthSealed⟩
    refine ⟨h.sealedEpoch.trans hnone, ?_, ?_, ?_, ?_⟩
    · rw [h.code.hasRetired_eq, hcodeRetired]
      rfl
    · rw [h.code.hasSealed_eq, hcodeSealed]
      rfl
    · rw [h.depth.hasRetired_eq, hdepthRetired]
      rfl
    · rw [h.depth.hasSealed_eq, hdepthSealed]
      rfl

/-- Where nobody reads nothing is left to release. -/
theorem collectKeeping_unparked (h : Sound ix v) (ho : v.Orderly)
    (hidle : ∀ e, v.gate.readers e = 0) (keep : Option SlotId) :
    (ix.collectKeeping keep).2.Unparked := by
  obtain ⟨es, released, w, hlead, hcol, -⟩ := collectKeeping_spec ix keep h ho
  refine hlead.sound.unparked_iff.mpr (hcol.ended.resolve_left ?_)
  rintro ⟨e, -, hreaders⟩
  rw [hlead.moves.readers_eq] at hreaders
  exact hreaders (hidle e)

/-! ## What is free -/

theorem collectKeeping_frees (ix : Index) (keep : Option SlotId) : ∀ {v : View}, Sound ix v →
    v.Orderly → ix.code.freeSlots ⊆ (ix.collectKeeping keep).2.code.freeSlots ∧
      ix.depth.freeSlots ⊆ (ix.collectKeeping keep).2.depth.freeSlots := by
  induction ix using collectKeeping.induct keep with
  | case1 =>
      rename_i ix epoch hsealed hdrained released ih
      intro v h ho
      obtain ⟨-, hlead⟩ := release_leads h hsealed hdrained keep
      obtain ⟨hcode, hdepth⟩ := ih hlead.sound (hlead.moves.orderly ho)
      rw [hlead.sound.code.freeSlots_eq] at hcode
      rw [hlead.sound.depth.freeSlots_eq] at hdepth
      rw [collectKeeping_release keep hsealed hdrained, h.code.freeSlots_eq, h.depth.freeSlots_eq]
      constructor
      · intro x hx
        exact hcode (List.mem_append_right _ hx)
      · intro x hx
        exact hdepth (List.mem_append_right _ hx)
  | case2 ix epoch hsealed hdrained =>
      intro v h ho
      rw [collectKeeping_blocked keep hsealed hdrained]
      exact ⟨List.Subset.refl _, List.Subset.refl _⟩
  | case3 ix hnone hretired ih =>
      intro v h ho
      have hlead := sealRetired_leads h ho hnone
      rw [collectKeeping_turn keep hnone hretired]
      exact ih hlead.sound (hlead.moves.orderly ho)
  | case4 ix hnone hretired =>
      intro v h ho
      rw [collectKeeping_idle keep hnone hretired]
      exact ⟨List.Subset.refl _, List.Subset.refl _⟩

end Index

end JitIndex
