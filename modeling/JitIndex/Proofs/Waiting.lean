import JitIndex.Waiting
import Mathlib.Logic.Function.Iterate

/-!
# When a slow wait is noticed

A wait polls, and goes through a round after every poll that yields nothing.
The number of polls that it may use is a budget: what a wait comes to with one
budget, it comes to with every greater one (`Waitable.await_add`), so nothing
depends on it once the poll that yields is within reach.

Rounds are counted, and counting stops at the greatest word
(`Wait.rounds_after`). A warning is due in every round whose count is the
threshold. A count between the first and the greatest one comes up once; the
count 0 never does, because a round is counted before it is looked at; and the
greatest one comes up again in every later round. `Wait.due` adds that up, and
`Waitable.logged` keeps the warnings that a wait gives beside its state.
-/

namespace JitIndex

universe u v

namespace Wait

/-- Every round issues hints. -/
theorem hints_lt_pause (w : Wait) : w.hints < w.pause.hints := by
  rw [Wait.pause, Nat.one_shiftLeft]
  exact Nat.lt_add_of_pos_right (Nat.two_pow_pos _)

/-! ## Counting rounds -/

/-- The greatest count of rounds. -/
def lastRound : Nat := UInt32.size - 1

/-- A wait that has gone through so many rounds. -/
def after (n : Nat) : Wait := pause^[n] {}

theorem after_succ (n : Nat) : after (n + 1) = (after n).pause := Function.iterate_succ_apply' ..

theorem rounds_pause (w : Wait) : w.pause.rounds.toNat = min (w.rounds.toNat + 1) lastRound := by
  have hword : w.rounds.toNat < UInt32.size := w.rounds.toNat_lt_size
  have hnext : (w.rounds + 1).toNat = (w.rounds.toNat + 1) % UInt32.size := UInt32.toNat_add ..
  have hzero : w.rounds + 1 = 0 ↔ (w.rounds + 1).toNat = 0 := UInt32.toNat_inj.symm
  unfold pause lastRound
  dsimp only
  split
  · rename_i hover
    rw [hzero] at hover
    simp only [UInt32.size] at *
    omega
  · rename_i hmore
    rw [hzero] at hmore
    simp only [UInt32.size] at *
    omega

theorem rounds_after (n : Nat) : (after n).rounds.toNat = min n lastRound := by
  induction n with
  | zero => rfl
  | succ n ih =>
      rw [after_succ, rounds_pause, ih]
      omega

/-! ## Warnings that are due -/

/-- In how many of the first `n` rounds a warning is due. -/
def due (warnAfter : UInt32) (n : Nat) : Nat :=
  if warnAfter.toNat = lastRound then n + 1 - lastRound
  else if 0 < warnAfter ∧ warnAfter.toNat ≤ n then 1
  else 0

theorem due_zero (warnAfter : UInt32) : due warnAfter 0 = 0 := by
  unfold due
  split
  · rfl
  · refine if_neg fun ⟨hpos, hle⟩ => ?_
    rw [UInt32.lt_iff_toNat_lt] at hpos
    exact Nat.not_le_of_lt hpos hle

/-- Another round adds a warning exactly if its count is the threshold. -/
theorem due_succ (warnAfter : UInt32) (n : Nat) :
    due warnAfter (n + 1) =
      due warnAfter n + if (after (n + 1)).rounds = warnAfter then 1 else 0 := by
  have hcount : (after (n + 1)).rounds = warnAfter ↔ min (n + 1) lastRound = warnAfter.toNat := by
    rw [← UInt32.toNat_inj, rounds_after]
  have hpos : 0 < warnAfter ↔ 0 < warnAfter.toNat := UInt32.lt_iff_toNat_lt
  have hword : warnAfter.toNat ≤ lastRound := Nat.le_sub_one_of_lt warnAfter.toNat_lt_size
  have hlast : 0 < lastRound := by decide
  unfold due
  simp only [hpos, hcount]
  by_cases hgreatest : warnAfter.toNat = lastRound
  · -- from this count on, every round has it
    simp only [hgreatest, if_true]
    split <;> omega
  · simp only [hgreatest, if_false]
    by_cases hnow : n + 1 = warnAfter.toNat
    · rw [if_pos (by omega), if_neg (by omega), if_pos (by omega)]
    · rw [if_neg (c := min (n + 1) lastRound = warnAfter.toNat) (by omega)]
      refine if_congr ?_ rfl rfl
      omega

/-- A threshold of 2 rounds, and the greatest one when it is passed by one round. -/
example : due 2 10 = 1 ∧ due 4294967295 4294967296 = 2 := by decide

end Wait

namespace Waitable

variable {σ : Type u} {β : Type v}

/-! ## The budget of polls -/

theorem await_of_poll {t : Waitable σ β} {s s' : σ} {b : β} (h : t.poll s = (some b, s'))
    (warnAfter : UInt32) (polls : Nat) (w : Wait) :
    t.await warnAfter (polls + 1) w s = (some b, w, s') := by
  unfold await
  rw [h]

theorem await_of_no_poll {t : Waitable σ β} {s s' : σ} (h : t.poll s = (none, s'))
    (warnAfter : UInt32) (polls : Nat) (w : Wait) :
    t.await warnAfter (polls + 1) w s =
      t.await warnAfter polls w.pause (t.round warnAfter w s').2 := by
  rw [await, h]
  rfl

/-- A wait that is not over when a part of its budget is used up goes on with the rest. -/
theorem await_add (t : Waitable σ β) (warnAfter : UInt32) (polls more : Nat) {w w' : Wait}
    {s s' : σ} (h : t.await warnAfter polls w s = (none, w', s')) :
    t.await warnAfter (polls + more) w s = t.await warnAfter more w' s' := by
  induction polls generalizing w s with
  | zero =>
      cases h
      rw [Nat.zero_add]
  | succ polls ih =>
      rw [Nat.add_right_comm]
      cases hpoll : t.poll s with
      | mk found s₁ =>
          cases found with
          | some b =>
              rw [await_of_poll hpoll] at h
              cases h
          | none =>
              rw [await_of_no_poll hpoll] at h ⊢
              exact ih h

/-! ## How long a wait takes -/

theorem hints_le_await (t : Waitable σ β) (warnAfter : UInt32) : ∀ (polls : Nat) (w : Wait) (s : σ),
    w.hints ≤ (t.await warnAfter polls w s).2.1.hints
  | 0, w, s => Nat.le_refl _
  | polls + 1, w, s => by
      unfold await
      split
      · exact Nat.le_refl _
      · exact Nat.le_trans (Nat.le_of_lt w.hints_lt_pause) (hints_le_await t warnAfter polls _ _)

/-- No hint is issued exactly if the first poll yields. -/
theorem await_hints_eq (t : Waitable σ β) (warnAfter : UInt32) (polls : Nat) (w : Wait) (s : σ) :
    (t.await warnAfter (polls + 1) w s).2.1.hints = w.hints ↔ (t.poll s).1.isSome = true := by
  unfold await
  split
  · rename_i b s' hpoll
    rw [hpoll]
    exact iff_of_true rfl rfl
  · rename_i s' hpoll
    rw [hpoll]
    have hmore := t.hints_le_await warnAfter polls w.pause (t.round warnAfter w s').2
    exact iff_of_false (Nat.ne_of_gt (Nat.lt_of_lt_of_le w.hints_lt_pause hmore))
      Bool.false_ne_true

/-! ## The warnings that are given -/

/-- The same to wait for, with the warnings that were given in a list. -/
def logged (t : Waitable σ β) : Waitable (σ × List UInt32) β where
  poll s := ((t.poll s.1).1, (t.poll s.1).2, s.2)
  pass before issued s := (t.pass before issued s.1, s.2)
  warn rounds s := (t.warn rounds s.1, s.2 ++ [rounds])

theorem poll_logged (t : Waitable σ β) {s s' : σ} {found : Option β}
    (h : t.poll s = (found, s')) (given : List UInt32) :
    t.logged.poll (s, given) = (found, s', given) := by
  simp only [logged, h]

theorem round_logged (t : Waitable σ β) (warnAfter : UInt32) (w : Wait) (s : σ)
    (given : List UInt32) :
    (t.logged.round warnAfter w (s, given)).2 =
      ((t.round warnAfter w s).2,
        given ++ List.replicate (if w.pause.rounds = warnAfter then 1 else 0) warnAfter) := by
  unfold round
  dsimp only [logged]
  split
  · rename_i hdue
    rw [hdue]
    rfl
  · rw [List.replicate_zero, List.append_nil]

/-- A wait comes to the same whether or not somebody keeps the warnings. -/
theorem await_logged (t : Waitable σ β) (warnAfter : UInt32) (polls : Nat) (w : Wait) (s : σ)
    (given : List UInt32) :
    let r := t.logged.await warnAfter polls w (s, given)
    t.await warnAfter polls w s = (r.1, r.2.1, r.2.2.1) := by
  induction polls generalizing w s given with
  | zero => rfl
  | succ polls ih =>
      cases hpoll : t.poll s with
      | mk found s' =>
          cases found with
          | some b => rw [await_of_poll hpoll, await_of_poll (t.poll_logged hpoll given)]
          | none =>
              rw [await_of_no_poll hpoll, await_of_no_poll (t.poll_logged hpoll given),
                round_logged]
              exact ih _ _ _

/-- A wait that is not over has gone through a round for every poll, and has given the warnings that
were due. -/
theorem await_logged_of_none (t : Waitable σ β) (warnAfter : UInt32) (polls : Nat) {n : Nat}
    {s : σ} (h : (t.await warnAfter polls (.after n) s).1 = none) :
    t.logged.await warnAfter polls (.after n) (s, .replicate (Wait.due warnAfter n) warnAfter) =
      (none, .after (n + polls), (t.await warnAfter polls (.after n) s).2.2,
        .replicate (Wait.due warnAfter (n + polls)) warnAfter) := by
  induction polls generalizing n s with
  | zero => rfl
  | succ polls ih =>
      cases hpoll : t.poll s with
      | mk found s' =>
          cases found with
          | some b =>
              rw [await_of_poll hpoll] at h
              cases h
          | none =>
              rw [await_of_no_poll hpoll, ← Wait.after_succ] at h ⊢
              rw [await_of_no_poll (t.poll_logged hpoll _), round_logged, ← Wait.after_succ,
                List.replicate_append_replicate, ← Wait.due_succ, ih h, Nat.add_right_comm,
                Nat.add_assoc]

/-- The first `n` polls yield nothing, and the next one does: that is what the wait comes to, with
every greater budget, after `n` rounds. A threshold between the first count and the greatest one is
warned of once if there were so many rounds, and not otherwise; the threshold 0 never is, and the
greatest one is in every round from there on. -/
theorem slow_wait_noticed (t : Waitable σ β) (warnAfter : UInt32) {s s' : σ} {n : Nat} {b : β}
    (hfailed : (t.await warnAfter n {} s).1 = none)
    (hfound : t.poll (t.await warnAfter n {} s).2.2 = (some b, s')) {polls : Nat}
    (hpolls : n < polls) :
    t.await warnAfter polls {} s = (some b, .after n, s') ∧
    t.logged.await warnAfter polls {} (s, []) =
      (some b, .after n, s', .replicate (Wait.due warnAfter n) warnAfter) := by
  obtain ⟨more, rfl⟩ : ∃ more, polls = n + (more + 1) := Nat.exists_eq_add_of_lt hpolls
  have hwaited := t.await_logged_of_none warnAfter n (n := 0) hfailed
  rw [Wait.due_zero, Nat.zero_add] at hwaited
  have hlogged : t.logged.await warnAfter (n + (more + 1)) {} (s, []) =
      (some b, .after n, s', .replicate (Wait.due warnAfter n) warnAfter) := by
    refine (t.logged.await_add warnAfter n (more + 1) hwaited).trans ?_
    exact await_of_poll (t.poll_logged hfound _) warnAfter more _
  refine ⟨?_, hlogged⟩
  rw [t.await_logged warnAfter _ {} s [], hlogged]

/-- A threshold of two rounds, and three polls that fail. -/
theorem slow_trial_noticed :
    let s : Trial := { goal := 4, host := { allocator := .generous } }
    (Trial.waitable.await 2 3 {} s).1 = none ∧
    ∃ s', Trial.waitable.poll (Trial.waitable.await 2 3 {} s).2.2 = (some 4, s') ∧
      Trial.waitable.logged.await 2 4 {} (s, []) = (some 4, .after 3, s', [2]) :=
  ⟨rfl, _, rfl, (slow_wait_noticed Trial.waitable 2 rfl rfl (by decide)).2⟩

/-- A wait that should be noticed at once is not noticed at all. -/
theorem hasty_wait_unnoticed :
    (Trial.run 0 2).1 = some 2 ∧ (Trial.run 0 2).2.1 = .after 1 ∧
      (Trial.run 0 2).2.2.host.journal = #[] := by
  decide

end Waitable

end JitIndex
