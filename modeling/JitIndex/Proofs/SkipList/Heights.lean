import JitIndex.Proofs.SkipList.Accounting
import Mathlib.Data.Fintype.Prod
import Mathlib.Logic.Function.Iterate

/-!
# Heights stay random

The state of the height generator is two words, and a draw shifts one into the
other. Either word may become zero, but not both: a draw can be undone, because
adding a shifted word to a word without carry can be (`injective_xor`). The state
that is all zero is the only one that leads to itself (`advance_eq_self_iff`): so no
other state leads to it, and no seed stands for it.

A list draws once for every node that it makes, and for nothing else
(`ListSession.perform_heights`). So whatever is done to a list, its generator never
comes to the state from where all nodes would be of the greatest height.
-/

namespace JitIndex

namespace HeightSource

/-! ## A draw can be undone -/

/-- Words can be told from their sums with a linear image of theirs that has no other fixed point
than zero. -/
theorem injective_xor {f : UInt32 → UInt32} (hxor : ∀ x y, f (x ^^^ y) = f x ^^^ f y)
    (hfixed : ∀ x, f x = x → x = 0) : Function.Injective fun x => x ^^^ f x := by
  intro x y h
  have hsame : x ^^^ f x = y ^^^ f y := h
  have hfix : f (x ^^^ y) = x ^^^ y := by
    calc f (x ^^^ y) = f x ^^^ f y := hxor x y
      _ = x ^^^ (x ^^^ f x) ^^^ f y := by
        rw [← UInt32.xor_assoc x x, UInt32.xor_self, UInt32.zero_xor]
      _ = x ^^^ y := by
        rw [hsame, ← UInt32.xor_assoc, UInt32.xor_assoc _ (f y), UInt32.xor_self, UInt32.xor_zero]
  exact UInt32.xor_eq_zero_iff.mp (hfixed _ hfix)

/-- A word that a shift leaves alone is shifted out when that is done again. -/
theorem shiftLeft_fixed {x : UInt32} (h : x <<< 17 = x) : x = 0 := by
  have hbits : x.toBitVec <<< 17 = x.toBitVec := by
    simpa using congrArg UInt32.toBitVec h
  refine UInt32.toBitVec_inj.mp ?_
  calc x.toBitVec = x.toBitVec <<< 17 <<< 17 := by rw [hbits, hbits]
    _ = x.toBitVec <<< 34 := (BitVec.shiftLeft_add ..).symm
    _ = 0 := BitVec.shiftLeft_eq_zero (by decide)

theorem shiftRight_fixed {x : UInt32} (h : x >>> 7 = x) : x = 0 := by
  have hnat := congrArg UInt32.toNat h
  simp only [UInt32.toNat_shiftRight, UInt32.reduceToNat, Nat.reduceMod, Nat.shiftRight_eq_div_pow,
    Nat.reducePow] at hnat
  refine UInt32.toNat_inj.mp ?_
  show x.toNat = 0
  omega

/-- What a draw makes of the word that leaves the state. -/
def stir (w : UInt32) : UInt32 :=
  let x := w ^^^ (w <<< 17)
  x ^^^ (x >>> 7)

theorem stir_injective : Function.Injective stir := by
  have hleft : Function.Injective fun x : UInt32 => x ^^^ x <<< 17 :=
    injective_xor (fun _ _ => UInt32.shiftLeft_xor) fun _ => shiftLeft_fixed
  have hright : Function.Injective fun x : UInt32 => x ^^^ x >>> 7 :=
    injective_xor (fun _ _ => UInt32.shiftRight_xor) fun _ => shiftRight_fixed
  exact hright.comp hleft

/-- The word that stays is added to the one that leaves, so it can be taken off again. -/
theorem two_advance (s : HeightSource) :
    s.advance.two = stir s.one ^^^ (s.two ^^^ (s.two >>> 16)) := by
  simp only [advance, stir]
  rw [UInt32.xor_assoc _ s.two, UInt32.xor_comm s.two, ← UInt32.xor_assoc, UInt32.xor_assoc]

theorem advance_injective : Function.Injective advance := by
  intro s t h
  have htwo : s.two = t.two := congrArg HeightSource.one h
  have hstir : stir s.one = stir t.one := by
    have hsum := congrArg HeightSource.two h
    rwa [two_advance, two_advance, htwo, UInt32.xor_left_inj] at hsum
  cases s
  cases t
  congr
  exact stir_injective hstir

/-- There are finitely many states, so every state comes after one. -/
theorem advance_bijective : Function.Bijective advance := by
  have hwords : Function.Injective fun s : HeightSource => (s.one.toFin, s.two.toFin) := by
    intro s t h
    obtain ⟨hone, htwo⟩ := Prod.mk.inj h
    cases s
    cases t
    congr
    · exact UInt32.toFin_inj.mp hone
    · exact UInt32.toFin_inj.mp htwo
  have hfinite : Finite HeightSource := Finite.of_injective _ hwords
  exact Finite.injective_iff_bijective.mp advance_injective

/-! ## Only zero leads to itself -/

/-- The state that is all zero. -/
def flat : HeightSource := ⟨0, 0⟩

/-- From zero on, every height that is drawn is the greatest one. -/
theorem draw_flat : flat.draw = (maxHeight, flat) := by decide

/-- The bits of a word from some place on are clear if each of them is once all above it are. -/
theorem clear_from {n lo : Nat} {w : BitVec n}
    (h : ∀ i, lo ≤ i → (∀ j, i < j → w.getLsbD j = false) → w.getLsbD i = false)
    (i : Nat) (hi : lo ≤ i) : w.getLsbD i = false := by
  by_cases hend : n ≤ i
  · exact BitVec.getLsbD_of_ge _ _ hend
  · exact h i hi fun j hj => clear_from h j (Nat.le_of_lt (Nat.lt_of_le_of_lt hi hj))
termination_by n - i

/-- A word whose upper half is clear, and whose bits are sums of bits above them, is zero if its
lowest bit is found again seven places on: from the eighth bit up they are all one bit, and going
down from there that bit comes and goes, so it is not at both places. -/
theorem eq_zero_of_sums {w : BitVec 32} (hupper : ∀ i, 16 ≤ i → w.getLsbD i = false)
    (hsum : ∀ i < 15, w.getLsbD i = (w.getLsbD (i + 1) ^^ w.getLsbD (i + 8)))
    (hround : w.getLsbD 0 = w.getLsbD 7) : w = 0 := by
  have hsame : ∀ n ≤ 7, w.getLsbD (n + 8) = w.getLsbD 8 := by
    intro n hn
    induction n with
    | zero => rfl
    | succ n ih =>
        have hnext := hsum (n + 8) (by omega)
        rw [hupper (n + 8 + 8) (by omega), Bool.xor_false, ih (by omega)] at hnext
        rw [Nat.add_right_comm, ← hnext]
  have hturn : ∀ i < 8, w.getLsbD i = (w.getLsbD (i + 1) ^^ w.getLsbD 8) := by
    intro i hi
    rw [← hsame i (by omega)]
    exact hsum i (by omega)
  have heighth : w.getLsbD 8 = false := by
    rw [hturn 0 (by decide), hturn 1 (by decide), hturn 2 (by decide), hturn 3 (by decide),
      hturn 4 (by decide), hturn 5 (by decide), hturn 6 (by decide), hturn 7 (by decide)] at hround
    simpa using hround
  refine BitVec.eq_of_getLsbD_eq fun i _ => ?_
  rw [show (0 : BitVec 32).getLsbD i = false by simp]
  refine clear_from (fun i _ habove => ?_) i i.zero_le
  by_cases hlow : i < 8
  · rw [hturn i hlow, habove (i + 1) (by omega), heighth, Bool.xor_false]
  · by_cases hhigh : 16 ≤ i
    · exact hupper i hhigh
    · have hi := hsame (i - 8) (by omega)
      rwa [Nat.sub_add_cancel (Nat.le_of_not_lt hlow), heighth] at hi

/-- Only zero is stirred to its own upper half. -/
theorem stir_eq_upper {x : UInt32} (h : stir x = x >>> 16) : x = 0 := by
  obtain ⟨w, hw⟩ : ∃ w, x.toBitVec ^^^ x.toBitVec <<< 17 = w := ⟨_, rfl⟩
  have hword : w ^^^ w >>> 7 = x.toBitVec >>> 16 := by
    simpa [stir, ← hw] using congrArg UInt32.toBitVec h
  have hsum : ∀ i, (w.getLsbD i ^^ w.getLsbD (i + 7)) = x.toBitVec.getLsbD (i + 16) := by
    intro i
    have hbit := congrArg (fun v => v.getLsbD i) hword
    simp only [BitVec.getLsbD_xor, BitVec.getLsbD_ushiftRight] at hbit
    rwa [Nat.add_comm 7, Nat.add_comm 16] at hbit
  have hupper : ∀ i, 16 ≤ i → w.getLsbD i = false := by
    refine clear_from fun i hi habove => ?_
    have hnone := hsum i
    rwa [habove (i + 7) (by omega), BitVec.getLsbD_of_ge _ (i + 16) (by omega),
      Bool.xor_false] at hnone
  have hlower : ∀ i < 17, x.toBitVec.getLsbD i = w.getLsbD i := by
    intro i hi
    simp [← hw, hi]
  -- as the upper half of `w` is clear, `x` has there what it has in the lower one
  have hcopy : ∀ i < 15, x.toBitVec.getLsbD (i + 17) = w.getLsbD i := by
    intro i hi
    have hnone := hupper (i + 17) (by omega)
    have hlt : i + 17 < 32 := by omega
    rw [← hw, BitVec.getLsbD_xor, BitVec.getLsbD_shiftLeft, Nat.add_sub_cancel,
      hlower i (by omega)] at hnone
    simpa [hlt, Nat.not_lt_of_le (Nat.le_add_left 17 i)] using hnone
  have hzero : w = 0 := by
    refine eq_zero_of_sums hupper (fun i hi => ?_) ?_
    · rw [← hcopy i hi]
      exact (hsum (i + 1)).symm
    · have hmiddle := hsum 0
      rw [hlower 16 (by decide), hupper 16 (by decide)] at hmiddle
      simpa using hmiddle
  refine stir_injective (UInt32.toBitVec_inj.mp ?_)
  simp [stir, hw, hzero]

/-- The state that is all zero leads to itself, and it is the only one that does. -/
theorem advance_eq_self_iff (s : HeightSource) : s.advance = s ↔ s = flat := by
  refine ⟨fun h => ?_, fun h => h ▸ congrArg Prod.snd draw_flat⟩
  have hsame : s.two = s.one := congrArg HeightSource.one h
  have hsum : (0 : UInt32) ^^^ s.one = stir s.one ^^^ s.one >>> 16 ^^^ s.one := by
    calc (0 : UInt32) ^^^ s.one = s.advance.two := by rw [h, hsame, UInt32.zero_xor]
      _ = stir s.one ^^^ (s.one ^^^ s.one >>> 16) := by rw [two_advance, hsame]
      _ = stir s.one ^^^ s.one >>> 16 ^^^ s.one := by rw [UInt32.xor_comm s.one, UInt32.xor_assoc]
  have hone : s.one = 0 :=
    stir_eq_upper (UInt32.xor_eq_zero_iff.mp ((UInt32.xor_left_inj _).mp hsum).symm)
  cases s
  congr
  exact hsame.trans hone
/-! ## No seed stands for zero -/

theorem ofSeed_ne_flat (seed : UInt64) : ofSeed seed ≠ flat := by
  intro h
  have htwo : (if seed.toUInt32 = 0 then 1 else seed.toUInt32) = 0 := congrArg two h
  split at htwo
  · exact absurd htwo (by decide)
  · contradiction

theorem iterate_ne_flat {s : HeightSource} (hs : s ≠ flat) (n : Nat) : advance^[n] s ≠ flat := by
  intro h
  have hfixed : advance^[n] flat = flat :=
    Function.iterate_fixed ((advance_eq_self_iff flat).mpr rfl) n
  exact hs (advance_injective.iterate n (h.trans hfixed.symm))

end HeightSource

/-! ## A list draws for the nodes it makes -/

namespace SkipList

universe u

variable {α : Type u}

theorem heights_setNext (l : SkipList α) (site : Site) (level : Nat) (target : Option SlotId) :
    (l.setNext site level target).heights = l.heights := by
  cases site <;> rfl

theorem heights_detach (id : SlotId) : ∀ (sites : List Site) (l : SkipList α) (level : Nat),
    (l.detach id level sites).heights = l.heights
  | [], _, _ => rfl
  | site :: above, l, level => by
      rw [detach, detachAt]
      split
      · rw [heights_setNext, heights_detach]
      · exact heights_detach ..

theorem heights_splice (id : SlotId) : ∀ (sites : List Site) (l : SkipList α) (level : Nat),
    (l.splice id level sites).heights = l.heights
  | [], _, _ => rfl
  | site :: above, l, level => by
      rw [splice, heights_splice, spliceAt, heights_setNext, heights_setNext]

theorem heights_unlinkBehind (l : SkipList α) (sites : List Site) (key : Addr) :
    (l.unlinkBehind sites key).2.heights = l.heights := by
  rw [unlinkBehind]
  dsimp only
  split
  · rfl
  · exact heights_detach ..

theorem heights_link (l : SkipList α) (id : SlotId) : (l.link id).2.heights = l.heights := by
  rw [link]
  split
  · rfl
  · exact (heights_splice ..).trans (heights_unlinkBehind ..)

theorem heights_strand (fuel : Nat) (l : SkipList α) (head : Option SlotId) :
    (l.strand fuel head).heights = l.heights := by
  induction fuel generalizing l head with
  | zero => rfl
  | succ fuel ih =>
      cases head with
      | none => rfl
      | some id =>
          rw [strand]
          split
          · rfl
          · exact ih ..

theorem heights_orphan (l : SkipList α) : l.orphan.heights = l.heights :=
  (heights_strand ..).trans (heights_strand ..)

theorem heights_claim [Inhabited α] (l : SkipList α) (host : Host) :
    (l.claim host).2.1.heights = l.heights := by
  unfold claim
  split
  · split <;> rfl
  · split
    · rfl
    · split <;> rfl

/-- Making a node draws once. If there is no room for one, nothing is drawn. -/
theorem heights_alloc [Inhabited α] (l : SkipList α) (host : Host) (key : Addr) (payload : α) :
    (∃ f, (l.alloc host key payload).1 = .error f ∧
      (l.alloc host key payload).2.1.heights = l.heights) ∨
    ∃ id, (l.alloc host key payload).1 = .ok id ∧
      (l.alloc host key payload).2.1.heights = l.heights.draw.2 := by
  have hclaim := l.heights_claim host
  unfold alloc
  rcases heq : l.claim host with ⟨f | id, c, host'⟩ <;> rw [heq] at hclaim
  · exact Or.inl ⟨f, rfl, hclaim⟩
  · exact Or.inr ⟨id, rfl, congrArg (fun s => s.draw.2) hclaim⟩

end SkipList

namespace ListSession

open HeightSource (advance)

/-- Only making a node draws a height. -/
theorem perform_heights (s : ListSession) (op : Operation) :
    (s.perform op).2.list.heights = s.list.heights ∨
      ∃ node, (s.perform op).1 = .made node ∧
        (s.perform op).2.list.heights = s.list.heights.draw.2 := by
  unfold perform
  cases op with
  | alloc key payload =>
      rw [Operation.command, step]
      have hdraw := s.list.heights_alloc s.host key payload
      rcases heq : s.list.alloc s.host key payload with ⟨f | id, list, host⟩ <;>
        rw [heq] at hdraw
      · obtain ⟨_, _, hsame⟩ | ⟨_, hok, _⟩ := hdraw
        · exact Or.inl hsame
        · cases hok
      · obtain ⟨_, herror, _⟩ | ⟨_, _, hnext⟩ := hdraw
        · cases herror
        · exact Or.inr ⟨_, rfl, hnext⟩
  | link n =>
      rw [Operation.command, step]
      split
      · exact Or.inl rfl
      · exact Or.inl (s.list.heights_link _)
  | unlink key => exact Or.inl (s.list.heights_unlinkBehind ..)
  | sealRetired =>
      rw [Operation.command, step]
      split <;> exact Or.inl rfl
  | reclaim => exact Or.inl (s.list.reclaimSome_kept _).heights
  | orphan => exact Or.inl s.list.heights_orphan
  | drain => exact Or.inl rfl

theorem operate_heights (s : ListSession) (ops : List Operation) :
    ∃ n ≤ ops.length, (s.operate ops).list.heights = advance^[n] s.list.heights := by
  induction ops generalizing s with
  | nil => exact ⟨0, Nat.le_refl _, rfl⟩
  | cons op ops ih =>
      obtain ⟨n, hle, hrest⟩ := ih (s.perform op).2
      rcases s.perform_heights op with hsame | ⟨_, _, hnext⟩
      · rw [hsame] at hrest
        exact ⟨n, Nat.le_succ_of_le hle, hrest⟩
      · rw [hnext] at hrest
        exact ⟨n + 1, Nat.succ_le_succ hle, hrest⟩

/-- The generator of a list has drawn a number of times from the state that its seed stands for. -/
theorem run_heights (seed : UInt64) (allocator : Allocator) (cs : List Command) :
    ∃ n, ((start seed allocator).run cs).list.heights = advance^[n] (.ofSeed seed) := by
  obtain ⟨ops, hops⟩ := (start seed allocator).run_operates cs
  obtain ⟨n, -, hn⟩ := (start seed allocator).operate_heights ops
  exact ⟨n, hops ▸ hn⟩

end ListSession

namespace HeightSource

/-- A draw maps the states to each other one to one. The only state that leads to itself is the one
that is all zero, and every height drawn from there is the greatest. So no other state comes to it:
none of those that come after a seed, after any number of draws, and none in which a list is found,
whatever was asked of it. Every draw is a height that a node may have. -/
theorem never_degenerates :
    (Function.Bijective fun s : HeightSource => s.draw.2) ∧
    (∀ s : HeightSource, s.draw.2 = s ↔ s = ⟨0, 0⟩) ∧
    (⟨0, 0⟩ : HeightSource).draw = (maxHeight, ⟨0, 0⟩) ∧
    (∀ seed n, (fun s : HeightSource => s.draw.2)^[n] (.ofSeed seed) ≠ ⟨0, 0⟩) ∧
    (∀ seed allocator cs,
      ((ListSession.start seed allocator).run cs).list.heights ≠ ⟨0, 0⟩) ∧
    ∀ s : HeightSource, 1 ≤ s.draw.1 ∧ s.draw.1 ≤ maxHeight := by
  refine ⟨advance_bijective, advance_eq_self_iff, draw_flat, ?_, ?_, draw_bounds⟩
  · intro seed n
    exact iterate_ne_flat (ofSeed_ne_flat seed) n
  · intro seed allocator cs
    obtain ⟨n, hn⟩ := ListSession.run_heights seed allocator cs
    rw [hn]
    exact iterate_ne_flat (ofSeed_ne_flat seed) n

end HeightSource

end JitIndex
